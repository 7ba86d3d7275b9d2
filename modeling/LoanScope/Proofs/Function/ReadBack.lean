import LoanScope.Proofs.Function.Fetch

/-! Reading a function back by its numbers. What is read are the parameters, the return type and the
nodes of the fixture, except that an assignment, an address and a dereference are read in one form
each, although a fixture can write them in two. -/

namespace LoanScope

namespace Fixture

/-! ### One form for each operation -/

def Expr.ofBinary : BinaryOp → Expr → Expr → Expr
  | .assign, left, right => .assign left right
  | op, left, right => .binary op left right

def Expr.ofUnary : UnaryOp → Expr → Expr
  | .addrOf, e => .addrOf e
  | .deref, e => .deref e
  | op, e => .unary op e

mutual

/-- The expression with each assignment, address and dereference in its own form. -/
def Expr.normal : Expr → Expr
  | .lit value => .lit value
  | .var x => .var x
  | .assign left right => .assign left.normal right.normal
  | .binary op left right => .ofBinary op left.normal right.normal
  | .addrOf e => .addrOf e.normal
  | .deref e => .deref e.normal
  | .unary op e => .ofUnary op e.normal
  | .call callee args ty => .call callee (Expr.listNormal args) ty
  | .paren e => .paren e.normal
  | .member e field arrow => .member e.normal field arrow

def Expr.listNormal : List Expr → List Expr
  | [] => []
  | e :: rest => e.normal :: Expr.listNormal rest

end

def Stmt.normal : Stmt → Stmt
  | decl x ty init => decl x ty (init.map Expr.normal)
  | expr e => expr e.normal
  | label x => label x

def Body.normal : Body → Body
  | instructions stmts => instructions (stmts.map Stmt.normal)
  | branch e => branch e.normal
  | loop e => loop e.normal
  | switch e => switch e.normal
  | ret value => ret (value.map Expr.normal)
  | start => start
  | finish => finish
  | jump => jump

mutual

/-- Whether every assignment, address and dereference is in its own form. -/
def Expr.isPlain : Expr → Bool
  | .lit _ => true
  | .var _ => true
  | .assign left right => left.isPlain && right.isPlain
  | .binary op left right => op ≠ .assign && left.isPlain && right.isPlain
  | .addrOf e => e.isPlain
  | .deref e => e.isPlain
  | .unary op e => op ≠ .addrOf && op ≠ .deref && e.isPlain
  | .call _ args _ => Expr.listIsPlain args
  | .paren e => e.isPlain
  | .member e _ _ => e.isPlain

def Expr.listIsPlain : List Expr → Bool
  | [] => true
  | e :: rest => e.isPlain && Expr.listIsPlain rest

end

def Stmt.isPlain : Stmt → Bool
  | decl _ _ init => init.all Expr.isPlain
  | expr e => e.isPlain
  | label _ => true

def Body.isPlain : Body → Bool
  | instructions stmts => stmts.all Stmt.isPlain
  | branch e => e.isPlain
  | loop e => e.isPlain
  | switch e => e.isPlain
  | ret value => value.all Expr.isPlain
  | start | finish | jump => true

theorem Expr.listNormal_eq_map (es : List Expr) : Expr.listNormal es = es.map Expr.normal := by
  induction es with
  | nil => rfl
  | cons e rest ih => rw [listNormal, ih, List.map_cons]

/-! Exactly what is in its own form already stays as it is. -/

mutual

theorem Expr.normal_eq_self_iff : ∀ e : Expr, e.normal = e ↔ e.isPlain
  | .lit _ => by simp [Expr.normal, Expr.isPlain]
  | .var _ => by simp [Expr.normal, Expr.isPlain]
  | .assign left right => by
      simp [Expr.normal, Expr.isPlain, Expr.normal_eq_self_iff left, Expr.normal_eq_self_iff right]
  | .binary op left right => by
      have hleft := Expr.normal_eq_self_iff left
      have hright := Expr.normal_eq_self_iff right
      cases op <;> simp [Expr.normal, Expr.ofBinary, Expr.isPlain, hleft, hright]
  | .addrOf e => by simp [Expr.normal, Expr.isPlain, Expr.normal_eq_self_iff e]
  | .deref e => by simp [Expr.normal, Expr.isPlain, Expr.normal_eq_self_iff e]
  | .unary op e => by
      have he := Expr.normal_eq_self_iff e
      cases op <;> simp [Expr.normal, Expr.ofUnary, Expr.isPlain, he]
  | .call _ args _ => by simp [Expr.normal, Expr.isPlain, Expr.listNormal_eq_self_iff args]
  | .paren e => by simp [Expr.normal, Expr.isPlain, Expr.normal_eq_self_iff e]
  | .member e _ _ => by simp [Expr.normal, Expr.isPlain, Expr.normal_eq_self_iff e]

theorem Expr.listNormal_eq_self_iff :
    ∀ es : List Expr, Expr.listNormal es = es ↔ Expr.listIsPlain es
  | [] => by simp [Expr.listNormal, Expr.listIsPlain]
  | e :: rest => by
      simp [Expr.listNormal, Expr.listIsPlain, Expr.normal_eq_self_iff e,
        Expr.listNormal_eq_self_iff rest]

end

theorem Expr.map_normal_eq_self_iff {value : Option Expr} :
    value.map Expr.normal = value ↔ value.all Expr.isPlain := by
  cases value with
  | none => simp
  | some e => simp [Expr.normal_eq_self_iff]

theorem Stmt.normal_eq_self_iff (s : Stmt) : s.normal = s ↔ s.isPlain := by
  cases s with
  | decl x ty init => simp [normal, isPlain, Expr.map_normal_eq_self_iff]
  | expr e => simp [normal, isPlain, Expr.normal_eq_self_iff]
  | label x => simp [normal, isPlain]

theorem Body.normal_eq_self_iff (body : Body) : body.normal = body ↔ body.isPlain := by
  cases body with
  | instructions stmts => simp [normal, isPlain, map_eq_self_iff Stmt.normal_eq_self_iff]
  | branch e | loop e | switch e => simp [normal, isPlain, Expr.normal_eq_self_iff]
  | ret value => simp [normal, isPlain, Expr.map_normal_eq_self_iff]
  | start | finish | jump => simp [normal, isPlain]

end Fixture

/-! ### Names for variables -/

mutual

/-- The expression as a fixture writes it. -/
def Expr.unbind : Expr → Fixture.Expr
  | .lit _ _ value => .lit value
  | .var _ _ v => .var v.name
  | .binary _ _ op left right => .ofBinary op left.unbind right.unbind
  | .unary _ _ op operand => .ofUnary op operand.unbind
  | .call _ _ callee args ty => .call callee (Expr.listUnbind args) (ty.map TypeRef.ty)
  | .paren _ _ inner => .paren inner.unbind
  | .member _ _ base field arrow => .member base.unbind field arrow

def Expr.listUnbind : List Expr → List Fixture.Expr
  | [] => []
  | e :: rest => e.unbind :: Expr.listUnbind rest

end

def Stmt.unbind : Stmt → Fixture.Stmt
  | decl _ d => .decl d.name d.ty.ty (d.init.map Expr.unbind)
  | expr _ e => .expr e.unbind
  | label _ name _ => .label name

def Step.unbind : Step → Fixture.Body
  | start => .start
  | finish => .finish
  | jump => .jump
  | instructions stmts => .instructions (stmts.map Stmt.unbind)
  | branch cond => .branch cond.unbind
  | loop cond => .loop cond.unbind
  | ret value _ => .ret (value.map Expr.unbind)
  | switch discriminant _ => .switch discriminant.unbind

theorem Expr.listUnbind_eq_map (es : List Expr) : Expr.listUnbind es = es.map Expr.unbind := by
  induction es with
  | nil => rfl
  | cons e rest ih => rw [listUnbind, ih, List.map_cons]

namespace Fixture

theorem Expr.SameHead.unbind_eq {scope : Scope} {e : Expr} {e' : LoanScope.Expr}
    (h : e.SameHead scope e')
    (hchildren : e'.children.map LoanScope.Expr.unbind = e.children.map Expr.normal)
    (htype : e'.typeRef?.map TypeRef.ty = e.resultTy?) : e'.unbind = e.normal := by
  cases h with
  | var hv =>
      have hfound := List.find?_some hv
      simp_all [LoanScope.Expr.unbind, normal]
  | call =>
      simp_all [LoanScope.Expr.unbind, normal, children, LoanScope.Expr.children,
        Expr.listNormal_eq_map, LoanScope.Expr.listUnbind_eq_map, LoanScope.Expr.typeRef?,
        resultTy?]
  | _ =>
      simp_all [LoanScope.Expr.unbind, normal, children, LoanScope.Expr.children, ofBinary, ofUnary]

theorem addType?_ty {b b' : LoanScope.Body} {ty : Option CType} {ref : Option TypeRef}
    (h : b.addType? ty = (ref, b')) : ref.map TypeRef.ty = ty := by
  cases ty <;> cases h <;> rfl

theorem Expr.ListBinds.map_unbind {here : Setting} {b b' : LoanScope.Body} {es : List Expr}
    {es' : List LoanScope.Expr} (h : ListBinds here b es es' b') :
    es'.map LoanScope.Expr.unbind = es.map Expr.normal := by
  induction h with
  | nil => rfl
  | cons _ htype hhead _ _ _ ihchildren ihrest =>
      rw [List.map_cons, List.map_cons, hhead.unbind_eq ihchildren (addType?_ty htype), ihrest]

theorem Expr.bind_unbind {here : Setting} {b b' : LoanScope.Body} {e : Expr} {e' : LoanScope.Expr}
    (h : e.bind here b = .ok (e', b')) : e'.unbind = e.normal := by
  simpa using (Expr.bind_binds e h).map_unbind

theorem Expr.bindOption_unbind {here : Setting} {b b' : LoanScope.Body} {value : Option Expr}
    {value' : Option LoanScope.Expr} (h : Expr.bindOption here b value = .ok (value', b')) :
    value'.map LoanScope.Expr.unbind = value.map Expr.normal := by
  have hlist := (Expr.bindOption_binds h).map_unbind
  cases value <;> cases value' <;> simp_all

theorem Stmt.bind_unbind {here : Setting} {b : LoanScope.Body} {s : Stmt}
    {bound : Bound LoanScope.Stmt} (h : s.bind here b = .ok bound) :
    bound.value.unbind = s.normal := by
  cases s with
  | decl x ty init =>
      rw [Stmt.bind] at h
      obtain ⟨⟨init', b₂⟩, hinit, hend⟩ := bind_eq_ok.mp h
      cases hend
      exact congrArg (Stmt.decl x ty) (Expr.bindOption_unbind hinit)
  | expr e =>
      obtain ⟨⟨e', b₁⟩, he, hend⟩ := bind_eq_ok.mp h
      cases hend
      exact congrArg Stmt.expr (Expr.bind_unbind he)
  | label name =>
      cases h
      rfl

theorem Stmt.bindList_unbind {here : Setting} {b : LoanScope.Body} {stmts : List Stmt}
    {bound : Bound (List LoanScope.Stmt)} (h : Stmt.bindList here b stmts = .ok bound) :
    bound.value.map LoanScope.Stmt.unbind = stmts.map Stmt.normal := by
  induction stmts generalizing here b bound with
  | nil =>
      cases h
      rfl
  | cons s rest ih =>
      obtain ⟨first, hfirst, hmore⟩ := bind_eq_ok.mp h
      obtain ⟨later, hlater, hend⟩ := bind_eq_ok.mp hmore
      cases hend
      rw [List.map_cons, List.map_cons, Stmt.bind_unbind hfirst, ih hlater]

theorem Body.bind_unbind {here : Setting} {b : LoanScope.Body} {body : Body} {bound : Bound Step}
    (h : body.bind here b = .ok bound) : bound.value.unbind = body.normal := by
  cases body with
  | start | finish | jump =>
      cases h
      rfl
  | instructions stmts =>
      obtain ⟨bound', hlist, hend⟩ := bind_eq_ok.mp h
      cases hend
      exact congrArg Body.instructions (Stmt.bindList_unbind hlist)
  | branch e | loop e | switch e =>
      obtain ⟨⟨e', b'⟩, he, hend⟩ := bind_eq_ok.mp h
      cases hend
      rw [Step.unbind, normal, Expr.bind_unbind he]
  | ret value =>
      obtain ⟨⟨value', b'⟩, hvalue, hend⟩ := bind_eq_ok.mp h
      cases hend
      exact congrArg Body.ret (Expr.bindOption_unbind hvalue)

theorem Node.bindList_unbind {file : FileId} {scope : Scope} {b b' : LoanScope.Body}
    {nodes : List Node} {nodes' : List LoanScope.Node}
    (h : Node.bindList file scope b nodes = .ok (nodes', b')) :
    nodes'.map (·.step.unbind) = nodes.map (·.body.normal) := by
  induction nodes generalizing scope b b' nodes' with
  | nil =>
      cases h
      rfl
  | cons node rest ih =>
      obtain ⟨step, hstep, hmore⟩ := bind_eq_ok.mp h
      obtain ⟨⟨rest', b₁⟩, hrest, hend⟩ := bind_eq_ok.mp hmore
      cases hend
      rw [List.map_cons, List.map_cons, Body.bind_unbind hstep, ih hrest]

theorem Param.map_bindList (file : FileId) (params : List Param) (b : LoanScope.Body) :
    ((Param.bindList file b params).1.map fun d => (⟨d.name, d.ty.ty⟩ : Param)) = params := by
  induction params generalizing b with
  | nil => rfl
  | cons p rest ih => exact congrArg (List.cons p) (ih _)

end Fixture

/-! ### Reading by number -/

namespace Function

/-- Reads the parameters: what is fetched under their numbers. -/
def readParams? (f : Function) : Option (List Fixture.Param) :=
  f.fetch?.map fun f => f.params.map fun d => ⟨d.name, d.ty.ty⟩

def readReturn? (f : Function) : Option (Option CType) :=
  f.fetch?.map fun f => f.returnTy.map TypeRef.ty

/-- Reads what the nodes do: what is fetched under the numbers that they hold, with variables as the
names of their declarations. -/
def readNodes? (f : Function) : Option (List Fixture.Body) :=
  f.fetch?.map fun f => f.nodes.map (·.step.unbind)

end Function

namespace Fixture

/-- What is read from the function of a fixture: its parameters, its return type, and what its nodes
do. -/
theorem toFunction_reads {f : Fixture} {file : FileId} {function : Function}
    (h : f.toFunction file = .ok function) :
    function.readParams? = some f.params ∧ function.readReturn? = some f.returnTy ∧
      function.readNodes? = some (f.sortedNodes.map (·.body.normal)) := by
  have hfetch := (toFunction_wellFormed h).1.fetch?
  rw [Function.readParams?, Function.readReturn?, Function.readNodes?, hfetch]
  obtain ⟨-, bound, hbound, hfunction⟩ := toFunction_eq_ok.mp h
  obtain ⟨graph, -, rfl⟩ := map_eq_ok.mp hfunction
  refine ⟨?_, ?_, ?_⟩
  · exact congrArg some (Param.map_bindList file f.params .empty)
  · exact congrArg some (addType?_ty rfl)
  · exact congrArg some (Node.bindList_unbind hbound)

/-- The function of a fixture is well formed: whatever its numbers and names stand for is found, and
is what the function holds. It is read back as the fixture with each assignment, address and
dereference in its own form, and so exactly as the fixture if and only if the fixture writes them
so. Every expression has the span of its node. -/
theorem toFunction_lossless {f : Fixture} {file : FileId} {function : Function}
    (h : f.toFunction file = .ok function) :
    function.WellFormed ∧ function.fetch? = some function ∧
    function.readParams? = some f.params ∧ function.readReturn? = some f.returnTy ∧
    function.readNodes? = some (f.sortedNodes.map (·.body.normal)) ∧
    (function.readNodes? = some (f.sortedNodes.map (·.body)) ↔
      ∀ node ∈ f.nodes, node.body.isPlain) ∧
    List.Forall₂ (Node.Marks file) f.sortedNodes function.nodes := by
  obtain ⟨hwf, hmarks⟩ := toFunction_wellFormed h
  obtain ⟨hparams, hreturn, hnodes⟩ := toFunction_reads h
  refine ⟨hwf, hwf.fetch?, hparams, hreturn, hnodes, ?_, hmarks⟩
  rw [hnodes, Option.some_inj, List.map_inj_left]
  constructor
  · intro hsame node hnode
    exact (Body.normal_eq_self_iff _).mp (hsame node (List.mem_mergeSort.mpr hnode))
  · intro hplain node hnode
    exact (Body.normal_eq_self_iff _).mpr (hplain node (List.mem_mergeSort.mp hnode))

/-- A declaration, a call with a type, and an assignment written as a binary operation. -/
def woven : Fixture where
  name := "woven"
  params := [⟨"p", .pointer (.builtin .int)⟩]
  returnTy := some (.qualified ⟨true, false, false⟩ (.builtin .int))
  start := 0
  nodes := [
    ⟨0, .instructions [
        .decl "q" (.qualified ⟨false, true, false⟩ (.pointer (.builtin .int)))
          (some (.addrOf (.deref (.var "p")))),
        .label "again",
        .expr (.binary .assign (.deref (.var "q"))
          (.call "f" [.paren (.var "q"), .lit (.int 1)] (some (.builtin .int))))],
      [1], ["p"], ["q"], some ⟨3, 9⟩⟩,
    ⟨1, .ret (some (.member (.var "q") "next" true)), [], ["q"], [], none⟩]

theorem sortedNodes_woven : woven.sortedNodes = woven.nodes :=
  List.mergeSort_of_pairwise (by decide)

theorem toFunction_lossless_woven :
    ∃ function, woven.toFunction 7 = .ok function ∧ function.WellFormed ∧
      function.readParams? = some woven.params ∧ function.readReturn? = some woven.returnTy ∧
      function.readNodes? = some [
        .instructions [
          .decl "q" (.qualified ⟨false, true, false⟩ (.pointer (.builtin .int)))
            (some (.addrOf (.deref (.var "p")))),
          .label "again",
          .expr (.assign (.deref (.var "q"))
            (.call "f" [.paren (.var "q"), .lit (.int 1)] (some (.builtin .int))))],
        .ret (some (.member (.var "q") "next" true))] := by
  have hok : ∃ function, woven.toFunction 7 = .ok function := by
    simp only [toFunction, names, plan, edges, sortedNodes_woven]
    exact ⟨_, rfl⟩
  obtain ⟨function, hfunction⟩ := hok
  obtain ⟨hwf, -, hparams, hreturn, hnodes, -, -⟩ := toFunction_lossless hfunction
  rw [sortedNodes_woven] at hnodes
  exact ⟨function, hfunction, hwf, hparams, hreturn, hnodes⟩

/-- One node, which evaluates an expression over `x`. -/
def evaluating (e : Expr) : Fixture :=
  ⟨"evaluating", [⟨"x", .builtin .int⟩], none, 0, [⟨0, .instructions [.expr e], [], [], [], none⟩]⟩

theorem sortedNodes_evaluating (e : Expr) : (evaluating e).sortedNodes = (evaluating e).nodes :=
  List.mergeSort_singleton _

/-- No way to read functions gives back the nodes of all fixtures: `x = 1` and the binary operation
`=` on `x` and `1` are bound alike. -/
theorem not_exists_read :
    ¬ ∃ read : Function → List Body, ∀ (f : Fixture) (file : FileId) (function : Function),
      f.toFunction file = .ok function → read function = f.sortedNodes.map (·.body) := by
  rintro ⟨read, hread⟩
  let assigning := evaluating (.assign (.var "x") (.lit (.int 1)))
  let operating := evaluating (.binary .assign (.var "x") (.lit (.int 1)))
  have hok : ∃ function, assigning.toFunction 0 = .ok function := by
    simp only [assigning, toFunction, names, plan, edges, sortedNodes_evaluating]
    exact ⟨_, rfl⟩
  have hsame : operating.toFunction 0 = assigning.toFunction 0 := by
    simp only [assigning, operating, toFunction, names, plan, edges, sortedNodes_evaluating]
    rfl
  obtain ⟨function, hfunction⟩ := hok
  have hbodies := (hread _ 0 _ hfunction).symm.trans (hread _ 0 _ (hsame.trans hfunction))
  rw [sortedNodes_evaluating, sortedNodes_evaluating] at hbodies
  simp [evaluating] at hbodies

end Fixture

end LoanScope
