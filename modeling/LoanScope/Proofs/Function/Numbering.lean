import LoanScope.Proofs.Function.Parts

/-! Numbers in the function of a fixture. Binding adds every part to the body after all that it is
built from. So each number leads to the part that it stands for, every expression is used once, and
every statement stands in one node. -/

namespace LoanScope

namespace Fixture

/-! ### Expressions -/

/-- The type that a call is said to have. -/
def Expr.resultTy? : Expr → Option CType
  | .call _ _ ty => ty
  | _ => none

/-- The second expression is the first one bound, but for what they are built from. -/
inductive Expr.SameHead (scope : Scope) : Expr → LoanScope.Expr → Prop where
  | lit {value id span} : SameHead scope (.lit value) (.lit id span value)
  | var {x v id span} (h : scope.resolve? x = some v) : SameHead scope (.var x) (.var id span v)
  | assign {left right left' right' id span} :
      SameHead scope (.assign left right) (.binary id span .assign left' right')
  | binary {op left right left' right' id span} :
      SameHead scope (.binary op left right) (.binary id span op left' right')
  | addrOf {e e' id span} : SameHead scope (.addrOf e) (.unary id span .addrOf e')
  | deref {e e' id span} : SameHead scope (.deref e) (.unary id span .deref e')
  | unary {op e e' id span} : SameHead scope (.unary op e) (.unary id span op e')
  | call {callee args args' ty ty' id span} :
      SameHead scope (.call callee args ty) (.call id span callee args' ty')
  | paren {e e' id span} : SameHead scope (.paren e) (.paren id span e')
  | member {e e' field arrow id span} :
      SameHead scope (.member e field arrow) (.member id span e' field arrow)

/-- Expressions in a row are bound one after the other, each after its children and its type. -/
inductive Expr.ListBinds (here : Setting) :
    LoanScope.Body → List Expr → List LoanScope.Expr → LoanScope.Body → Prop where
  | nil {b} : ListBinds here b [] [] b
  | cons {b b₁ b₂ b₃ e e' rest rest'} (hchildren : ListBinds here b e.children e'.children b₁)
      (htype : b₁.addType? e.resultTy? = (e'.typeRef?, b₂)) (hhead : e.SameHead here.scope e')
      (hid : e'.id = b₂.exprs.size) (hspan : e'.span = here.span)
      (hrest : ListBinds here { b₂ with exprs := b₂.exprs.push e' } rest rest' b₃) :
      ListBinds here b (e :: rest) (e' :: rest') b₃

theorem Expr.ListBinds.append {here : Setting} {b b₁ b₂ : LoanScope.Body} {es fs : List Expr}
    {es' fs' : List LoanScope.Expr} (h : ListBinds here b es es' b₁)
    (h' : ListBinds here b₁ fs fs' b₂) :
    ListBinds here b (es ++ fs) (es' ++ fs') b₂ := by
  induction h with
  | nil => exact h'
  | cons hchildren htype hhead hid hspan _ _ ih =>
      exact .cons hchildren htype hhead hid hspan (ih h')

mutual

theorem Expr.bind_binds {here : Setting} :
    ∀ (e : Expr) {b b' : LoanScope.Body} {e' : LoanScope.Expr},
      e.bind here b = .ok (e', b') → Expr.ListBinds here b [e] [e'] b'
  | .lit value, b, b', e', h => by
      rw [Expr.bind] at h
      cases h
      exact .cons .nil rfl .lit rfl rfl .nil
  | .var x, b, b', e', h => by
      rw [Expr.bind] at h
      cases hx : here.scope.resolve? x with
      | none => simp [hx] at h
      | some v =>
          simp only [hx] at h
          cases h
          exact .cons .nil rfl (.var hx) rfl rfl .nil
  | .assign left right, b, b', e', h => by
      rw [Expr.bind] at h
      obtain ⟨⟨left', b₁⟩, hleft, hrest⟩ := bind_eq_ok.mp h
      obtain ⟨⟨right', b₂⟩, hright, hend⟩ := bind_eq_ok.mp hrest
      have hboth := (Expr.bind_binds left hleft).append (Expr.bind_binds right hright)
      cases hend
      exact .cons hboth rfl .assign rfl rfl .nil
  | .binary op left right, b, b', e', h => by
      rw [Expr.bind] at h
      obtain ⟨⟨left', b₁⟩, hleft, hrest⟩ := bind_eq_ok.mp h
      obtain ⟨⟨right', b₂⟩, hright, hend⟩ := bind_eq_ok.mp hrest
      have hboth := (Expr.bind_binds left hleft).append (Expr.bind_binds right hright)
      cases hend
      exact .cons hboth rfl .binary rfl rfl .nil
  | .addrOf e, b, b', e', h => by
      rw [Expr.bind] at h
      obtain ⟨⟨e₁, b₁⟩, he, hend⟩ := bind_eq_ok.mp h
      have hoperand := Expr.bind_binds e he
      cases hend
      exact .cons hoperand rfl .addrOf rfl rfl .nil
  | .deref e, b, b', e', h => by
      rw [Expr.bind] at h
      obtain ⟨⟨e₁, b₁⟩, he, hend⟩ := bind_eq_ok.mp h
      have hoperand := Expr.bind_binds e he
      cases hend
      exact .cons hoperand rfl .deref rfl rfl .nil
  | .unary op e, b, b', e', h => by
      rw [Expr.bind] at h
      obtain ⟨⟨e₁, b₁⟩, he, hend⟩ := bind_eq_ok.mp h
      have hoperand := Expr.bind_binds e he
      cases hend
      exact .cons hoperand rfl .unary rfl rfl .nil
  | .call callee args ty, b, b', e', h => by
      rw [Expr.bind] at h
      obtain ⟨⟨args', b₁⟩, hargs, hend⟩ := bind_eq_ok.mp h
      have hboth := Expr.bindList_binds args hargs
      cases ty <;> cases hend <;> exact .cons hboth rfl .call rfl rfl .nil
  | .paren e, b, b', e', h => by
      rw [Expr.bind] at h
      obtain ⟨⟨e₁, b₁⟩, he, hend⟩ := bind_eq_ok.mp h
      have hoperand := Expr.bind_binds e he
      cases hend
      exact .cons hoperand rfl .paren rfl rfl .nil
  | .member e field arrow, b, b', e', h => by
      rw [Expr.bind] at h
      obtain ⟨⟨e₁, b₁⟩, he, hend⟩ := bind_eq_ok.mp h
      have hoperand := Expr.bind_binds e he
      cases hend
      exact .cons hoperand rfl .member rfl rfl .nil

theorem Expr.bindList_binds {here : Setting} :
    ∀ (es : List Expr) {b b' : LoanScope.Body} {es' : List LoanScope.Expr},
      Expr.bindList here b es = .ok (es', b') → Expr.ListBinds here b es es' b'
  | [], b, b', es', h => by
      rw [Expr.bindList] at h
      cases h
      exact .nil
  | e :: rest, b, b', es', h => by
      rw [Expr.bindList] at h
      obtain ⟨⟨e', b₁⟩, he, hmore⟩ := bind_eq_ok.mp h
      obtain ⟨⟨rest', b₂⟩, hrest, hend⟩ := bind_eq_ok.mp hmore
      cases hend
      exact (Expr.bind_binds e he).append (Expr.bindList_binds rest hrest)

end

theorem Expr.bindOption_binds {here : Setting} {b b' : LoanScope.Body} {value : Option Expr}
    {value' : Option LoanScope.Expr} (h : Expr.bindOption here b value = .ok (value', b')) :
    Expr.ListBinds here b value.toList value'.toList b' := by
  cases value with
  | none =>
      cases h
      exact .nil
  | some e =>
      obtain ⟨⟨e', b₁⟩, he, hend⟩ := bind_eq_ok.mp h
      have hbinds := Expr.bind_binds e he
      cases hend
      exact hbinds

theorem Expr.mem_names_of_children {e : Expr} {x : String} (hx : x ∈ Expr.listNames e.children) :
    x ∈ e.names := by
  cases e <;> simp_all [children, listNames, names]

theorem Expr.mem_names_of_resultTy? {e : Expr} {t : CType} (ht : e.resultTy? = some t) {x : String}
    (hx : x ∈ t.names) : x ∈ e.names := by
  cases e <;> simp_all [resultTy?, names]

theorem Expr.SameHead.mem_names {scope : Scope} {e : Expr} {e' : LoanScope.Expr}
    (h : e.SameHead scope e') {x : String} (hx : x ∈ e'.ownNames) : x ∈ e.names := by
  cases h with
  | var hv =>
      have hname := List.find?_some hv
      simp_all [LoanScope.Expr.ownNames, names]
  | _ => simp_all [LoanScope.Expr.ownNames, names]

theorem Expr.SameHead.mem_scope {scope : Scope} {e : Expr} {e' : LoanScope.Expr}
    (h : e.SameHead scope e') {v : Variable} (hv : e'.target? = some v) : v ∈ scope := by
  cases h with
  | var hfind =>
      cases hv
      exact List.mem_of_find?_eq_some hfind
  | _ => cases hv

open LoanScope.Body (Places)

variable {known : String → Prop}

theorem Expr.ListBinds.places {here : Setting} {b b' : LoanScope.Body} {es : List Expr}
    {es' : List LoanScope.Expr} (h : ListBinds here b es es' b') (hb : b.WellFormed known)
    (hscope : here.scope = b.scope) (hnames : ∀ x ∈ Expr.listNames es, known x) :
    Places known here.span b b' here.scope (LoanScope.Expr.listParts es') [] [] := by
  induction h with
  | @nil b => exact hscope ▸ hb.places_self here.span
  | @cons b b₁ b₂ b₃ e e' rest rest' hchildren htype hhead hid hspan hrest ihchildren ihrest =>
      simp only [Expr.listNames, List.mem_append] at hnames
      have hparts := ihchildren hb hscope fun x hx => hnames x (.inl (mem_names_of_children hx))
      obtain ⟨hadds, hwf, hfound⟩ := hparts.wellFormed.addType?
        (fun t ht x hx => hnames x (.inl (mem_names_of_resultTy? ht hx))) htype
      have hscope₂ : here.scope = b₂.scope := hparts.scope.trans hadds.scope_eq.symm
      have hstored : e'.StoredIn known b₂ := by
        refine ⟨?_, hfound, ?_, fun x hx => hnames x (.inl (hhead.mem_names hx))⟩
        · intro c hc
          have hmem : c ∈ b₂.exprs.toList := by
            rw [hadds.exprs, hparts.adds.exprs]
            simp [LoanScope.Expr.mem_listParts_self hc]
          rw [hid]
          exact hwf.getElem?_expr hmem
        · intro v hv
          exact hwf.getElem?_of_mem_scope (hscope₂ ▸ hhead.mem_scope hv)
      have hpush : Places known here.span b₂ { b₂ with exprs := b₂.exprs.push e' }
          here.scope [e'] [] [] :=
        ⟨b₂.adds_pushExpr e', by simpa using hspan, by simp, hwf.pushExpr hid hstored, hscope₂⟩
      have hlater := ihrest hpush.wellFormed hscope₂ fun x hx => hnames x (.inr hx)
      rw [LoanScope.Expr.listParts_cons]
      simpa using (hparts.trans ⟨hadds, by simp, by simp, hwf, hscope₂⟩).trans (hpush.trans hlater)

/-! ### Statements and nodes -/

theorem Expr.listNames_toList (value : Option Expr) :
    Expr.listNames value.toList = (value.map Expr.names).getD [] := by
  cases value <;> simp [listNames]

theorem Stmt.bind_places {here : Setting} {b : LoanScope.Body} {s : Stmt}
    {bound : Bound LoanScope.Stmt} (h : s.bind here b = .ok bound) (hb : b.WellFormed known)
    (hscope : here.scope = b.scope) (hnames : ∀ x ∈ s.names, known x) :
    Places known here.span b bound.body bound.scope
      (LoanScope.Expr.listParts bound.value.root?.toList) bound.value.decl?.toList
        [bound.value] := by
  cases s with
  | decl x ty init =>
      simp only [names, List.mem_append, List.mem_singleton] at hnames
      rw [Stmt.bind] at h
      obtain ⟨⟨init', b₂⟩, hinit, hend⟩ := bind_eq_ok.mp h
      have htyped := hb.placeType ty fun x hx => hnames x (.inl (.inl hx))
      have htype : Places known here.span b (b.addType ty).2 here.scope [] [] [] :=
        ⟨htyped.adds, by simp, by simp, htyped.wellFormed,
          hscope.trans htyped.adds.scope_eq.symm⟩
      have hvalue := (Expr.bindOption_binds hinit).places htype.wellFormed htype.scope
        (fun x hx => hnames x (.inl (.inr (Expr.listNames_toList init ▸ hx))))
      cases hend
      have hd : Decl.StoredIn known b₂
          ⟨b₂.decls.size, x, (b.addType ty).1, init', false, here.span⟩ :=
        ⟨hvalue.adds.typeAt? htyped.found,
          fun e he => hvalue.getElem?_expr (Option.mem_toList.mpr he), hnames x (.inr rfl)⟩
      have hdecl := (htype.trans hvalue).pushDecl rfl hd rfl
      refine hdecl.pushStmt rfl ⟨?_, ?_, by simp [LoanScope.Stmt.ownNames]⟩
      · rintro d ⟨⟩
        exact Array.getElem?_push_size
      · intro e he
        exact hvalue.getElem?_expr (Option.mem_toList.mpr he)
  | expr e =>
      obtain ⟨⟨e', b₁⟩, he, hend⟩ := bind_eq_ok.mp h
      have hvalue := (Expr.bind_binds e he).places hb hscope
        (by simpa [Expr.listNames, names] using hnames)
      cases hend
      refine hvalue.pushStmt rfl ⟨?_, ?_, by simp [LoanScope.Stmt.ownNames]⟩
      · rintro d ⟨⟩
      · rintro e ⟨⟩
        exact hvalue.getElem?_expr List.mem_cons_self
  | label name =>
      cases h
      rw [hscope]
      refine (hb.places_self here.span).pushStmt rfl ⟨?_, ?_, hnames⟩
      · rintro d ⟨⟩
      · rintro e ⟨⟩

theorem Stmt.bindList_places {here : Setting} {b : LoanScope.Body} {stmts : List Stmt}
    {bound : Bound (List LoanScope.Stmt)} (h : Stmt.bindList here b stmts = .ok bound)
    (hb : b.WellFormed known) (hscope : here.scope = b.scope)
    (hnames : ∀ x ∈ stmts.flatMap Stmt.names, known x) :
    Places known here.span b bound.body bound.scope
      (LoanScope.Expr.listParts (bound.value.filterMap LoanScope.Stmt.root?))
      (bound.value.filterMap LoanScope.Stmt.decl?) bound.value := by
  induction stmts generalizing here b bound with
  | nil =>
      cases h
      exact hscope ▸ hb.places_self here.span
  | cons s rest ih =>
      simp only [List.flatMap_cons, List.mem_append] at hnames
      obtain ⟨first, hfirst, hmore⟩ := bind_eq_ok.mp h
      obtain ⟨later, hlater, hend⟩ := bind_eq_ok.mp hmore
      have hplaces := Stmt.bind_places hfirst hb hscope fun x hx => hnames x (.inl hx)
      have hrest := ih hlater hplaces.wellFormed hplaces.scope fun x hx => hnames x (.inr hx)
      cases hend
      have hboth := hplaces.trans hrest
      rw [← LoanScope.Expr.listParts_append] at hboth
      cases hroot : first.value.root? <;> cases hdecl : first.value.decl? <;>
        simpa [hroot, hdecl] using hboth

theorem Body.bind_places {here : Setting} {b : LoanScope.Body} {body : Body} {bound : Bound Step}
    (h : body.bind here b = .ok bound) (hb : b.WellFormed known) (hscope : here.scope = b.scope)
    (hnames : ∀ x ∈ body.names, known x) :
    Places known here.span b bound.body bound.scope (LoanScope.Expr.listParts bound.value.roots)
      bound.value.decls bound.value.stmts := by
  cases body with
  | start | finish | jump =>
      cases h
      exact hscope ▸ hb.places_self here.span
  | instructions stmts =>
      obtain ⟨bound', hlist, hend⟩ := bind_eq_ok.mp h
      have hplaces := Stmt.bindList_places hlist hb hscope hnames
      cases hend
      rw [Step.decls_eq, Step.roots]
      simpa [Step.stmts, Step.expr?] using hplaces
  | branch e | loop e | switch e =>
      obtain ⟨⟨e', b'⟩, he, hend⟩ := bind_eq_ok.mp h
      have hplaces := (Expr.bind_binds e he).places hb hscope
        (by simpa [Expr.listNames, names] using hnames)
      cases hend
      exact hplaces
  | ret value =>
      obtain ⟨⟨value', b'⟩, hvalue, hend⟩ := bind_eq_ok.mp h
      have hplaces := (Expr.bindOption_binds hvalue).places hb hscope
        (by simpa [Expr.listNames_toList, names] using hnames)
      cases hend
      exact hplaces

/-- The second node has the live names of the first, and its span in all expressions. -/
structure Node.Marks (file : FileId) (node : Node) (node' : LoanScope.Node) : Prop where
  liveIn : node'.liveIn = node.liveIn
  liveOut : node'.liveOut = node.liveOut
  spans : ∀ e ∈ LoanScope.Expr.listParts node'.step.roots, e.span = node.spanIn file

/-- All that nodes in a row hold is added in their order. -/
structure Node.ListPlaces (known : String → Prop) (file : FileId) (b b' : LoanScope.Body)
    (nodes : List Node) (nodes' : List LoanScope.Node) : Prop where
  adds : b.Adds b' (LoanScope.Expr.listParts (nodes'.flatMap (·.step.roots)))
    (nodes'.flatMap (·.step.decls)) (nodes'.flatMap (·.step.stmts))
  marks : List.Forall₂ (Node.Marks file) nodes nodes'
  live : ∀ node ∈ nodes', ∀ x ∈ node.liveIn ++ node.liveOut, known x
  locals : ∀ d ∈ nodes'.flatMap (·.step.decls), d.isParam = false
  wellFormed : b'.WellFormed known

theorem Node.bindList_places {file : FileId} {scope : Scope} {b b' : LoanScope.Body}
    {nodes : List Node} {nodes' : List LoanScope.Node}
    (h : Node.bindList file scope b nodes = .ok (nodes', b')) (hb : b.WellFormed known)
    (hscope : scope = b.scope) (hnames : ∀ x ∈ nodes.flatMap Node.names, known x) :
    Node.ListPlaces known file b b' nodes nodes' := by
  induction nodes generalizing scope b b' nodes' with
  | nil =>
      cases h
      exact ⟨by constructor <;> simp, .nil, by simp, by simp, hb⟩
  | cons node rest ih =>
      simp only [List.flatMap_cons, List.mem_append, Node.names] at hnames
      obtain ⟨step, hstep, hmore⟩ := bind_eq_ok.mp h
      obtain ⟨⟨rest', b₁⟩, hrest, hend⟩ := bind_eq_ok.mp hmore
      have hplaces := Body.bind_places hstep hb hscope fun x hx => hnames x (.inl (.inl (.inl hx)))
      have hlater := ih hrest hplaces.wellFormed hplaces.scope fun x hx => hnames x (.inr hx)
      cases hend
      refine ⟨?_, .cons ⟨rfl, rfl, hplaces.spans⟩ hlater.marks, ?_, ?_, hlater.wellFormed⟩
      · simpa only [List.flatMap_cons, LoanScope.Expr.listParts_append]
          using hplaces.adds.trans hlater.adds
      · intro first hfirst x hx
        rcases List.mem_cons.mp hfirst with rfl | hfirst
        · rcases List.mem_append.mp hx with hx | hx
          · exact hnames x (.inl (.inl (.inr hx)))
          · exact hnames x (.inl (.inr hx))
        · exact hlater.live first hfirst x hx
      · intro d hd
        rw [List.flatMap_cons, List.mem_append] at hd
        exact hd.elim (hplaces.locals d) (hlater.locals d)

/-! ### The whole function -/

theorem Param.bindList_adds (file : FileId) (params : List Param) (b : LoanScope.Body) :
    b.Adds (Param.bindList file b params).2 [] (Param.bindList file b params).1 [] := by
  induction params generalizing b with
  | nil => constructor <;> simp [Param.bindList]
  | cons p rest ih =>
      exact ((b.adds_addType p.ty).trans (LoanScope.Body.adds_pushDecl _ _)).trans (ih _)

theorem Param.bindList_wellFormed {file : FileId} {params : List Param} {b : LoanScope.Body}
    (hb : b.WellFormed known)
    (hnames : ∀ x ∈ params.flatMap (fun p => p.ty.names ++ [p.name]), known x) :
    (Param.bindList file b params).2.WellFormed known := by
  induction params generalizing b with
  | nil => exact hb
  | cons p rest ih =>
      simp only [List.flatMap_cons, List.mem_append, List.mem_singleton] at hnames
      have htype := hb.placeType p.ty fun x hx => hnames x (.inl (.inl hx))
      refine ih (htype.wellFormed.pushDecl rfl
        ⟨htype.found, ?_, hnames p.name (.inl (.inr rfl))⟩) ?_
      · rintro e ⟨⟩
      · exact fun x hx => hnames x (.inr hx)

theorem Param.isParam_of_mem_bindList {file : FileId} {params : List Param} {b : LoanScope.Body}
    {d : Decl} (hd : d ∈ (Param.bindList file b params).1) : d.isParam = true := by
  induction params generalizing b with
  | nil => simp [Param.bindList] at hd
  | cons p rest ih =>
      rcases List.mem_cons.mp hd with rfl | hd
      · rfl
      · exact ih hd

theorem wellFormed_empty : LoanScope.Body.empty.WellFormed known := by
  constructor <;> simp [LoanScope.Body.empty]

end Fixture

namespace NameTable

theorem mem_names_mention {t : NameTable} {x y : String} :
    x ∈ (t.mention y).names ↔ x ∈ t.names ∨ x = y := by
  rw [mention]
  split
  · rename_i hy
    constructor
    · exact .inl
    · rintro (hx | rfl)
      · exact hx
      · exact hy
  · simp

theorem mem_names_ofList {names : List String} {x : String} :
    x ∈ (ofList names).names ↔ x ∈ names := by
  have hfold : ∀ t : NameTable, x ∈ (names.foldl mention t).names ↔ x ∈ t.names ∨ x ∈ names := by
    induction names with
    | nil => simp
    | cons y rest ih => simp [ih, mem_names_mention, or_assoc]
  rw [ofList, hfold]
  simp [empty]

/-- The names that are mentioned have symbols. -/
theorem knows_ofList {names : List String} {x : String} (hx : x ∈ names) :
    (ofList names).Knows x := by
  have hmem : x ∈ (ofList names).names := mem_names_ofList.mpr hx
  obtain ⟨symbol, hsymbol⟩ := Option.isSome_iff_exists.mp (List.isSome_idxOf?.mpr hmem)
  obtain ⟨hlt, hx, -⟩ := List.idxOf?_eq_some_iff.mp hsymbol
  exact ⟨symbol, hsymbol, List.getElem?_eq_some_iff.mpr ⟨hlt, hx⟩⟩

end NameTable

structure Node.StoredIn (known : String → Prop) (b : Body) (node : Node) : Prop where
  stmts : ∀ s ∈ node.step.stmts, b.stmts[s.id]? = some s
  expr : ∀ e, node.step.expr? = some e → b.exprs[e.id]? = some e
  live : ∀ x ∈ node.liveIn ++ node.liveOut, known x

namespace Function

/-- The expressions that nodes and declarations hold. -/
def roots (f : Function) : List Expr := f.nodes.flatMap (·.step.roots)

/-- Expression `i` is one of those that expression `p` is built from. -/
def IsParent (f : Function) (p i : ExprId) : Prop :=
  ∃ e, f.body.exprs[p]? = some e ∧ i ∈ e.children.map Expr.id

/-- All numbers lead to the parts that they stand for, and every part is used once. -/
structure WellFormed (f : Function) : Prop where
  body : f.body.WellFormed f.names.Knows
  name : f.names.Knows f.name
  params : ∀ d ∈ f.params, d.isParam = true ∧ f.body.decls[d.id]? = some d
  returnTy : ∀ r, f.returnTy = some r → f.body.typeAt? r.id = some r.ty
  nodes : ∀ node ∈ f.nodes, node.StoredIn f.names.Knows f.body
  /-- An expression that no node or declaration holds has exactly one parent. -/
  parent : ∀ i < f.body.exprs.size, i ∉ f.roots.map Expr.id → ∃! p, f.IsParent p i
  /-- A local variable is declared by exactly one statement. -/
  subject : ∀ d ∈ f.body.decls.toList, d.isParam = false →
    ∃! s : StmtId, f.body.stmts[s]? = some (Stmt.decl s d)
  /-- The nodes' statements, one node after the other, are all statements. -/
  stmts : f.nodes.flatMap (·.step.stmts) = f.body.stmts.toList

/-- The parts of the body are those of the parameters and of the nodes, in order. -/
structure LaidOut (f : Function) : Prop where
  exprs : f.body.exprs.toList = Expr.listParts f.roots
  decls : f.body.decls.toList = f.params ++ f.nodes.flatMap (·.step.decls)
  stmts : f.body.stmts.toList = f.nodes.flatMap (·.step.stmts)
  params : ∀ d ∈ f.params, d.isParam = true
  locals : ∀ d ∈ f.nodes.flatMap (·.step.decls), d.isParam = false

variable {f : Function} {known : String → Prop}

theorem LaidOut.existsUnique_parent (h : f.LaidOut) (hbody : f.body.WellFormed known) {i : ExprId}
    (hi : i < f.body.exprs.size) (hroot : i ∉ f.roots.map Expr.id) : ∃! p, f.IsParent p i := by
  -- The children of all expressions and the roots are all expressions, each once.
  have hperm : ((f.body.exprs.toList.flatMap fun e => e.children.map Expr.id) ++
      f.roots.map Expr.id).Perm (List.range f.body.exprs.size) := by
    rw [← map_toList_eq_range fun i e he => (hbody.exprs i e he).1, h.exprs, ← List.map_flatMap,
      ← List.map_append]
    exact (Expr.perm_listParts f.roots).map Expr.id
  have hnodup := (List.nodup_append.mp (hperm.nodup_iff.mpr List.nodup_range)).1
  have hmem := hperm.mem_iff.mpr (List.mem_range.mpr hi)
  rw [List.mem_append, or_iff_left hroot] at hmem
  simpa only [IsParent, Array.getElem?_toList] using existsUnique_of_nodup_flatMap hnodup hmem

theorem LaidOut.existsUnique_subject (h : f.LaidOut) (hbody : f.body.WellFormed known) {d : Decl}
    (hd : d ∈ f.body.decls.toList) (hlocal : d.isParam = false) :
    ∃! s : StmtId, f.body.stmts[s]? = some (Stmt.decl s d) := by
  have hlocals : (f.body.stmts.toList.flatMap fun s => s.decl?.toList) =
      f.nodes.flatMap (·.step.decls) := by
    simp only [h.stmts, List.flatMap_assoc, Step.decls_eq, List.filterMap_eq_flatMap_toList]
  have hnodup : f.body.decls.toList.Nodup := by
    refine List.Nodup.of_map Decl.id ?_
    rw [map_toList_eq_range fun i d hd => (hbody.decls i d hd).1]
    exact List.nodup_range
  rw [h.decls] at hnodup hd
  have hmem : d ∈ f.nodes.flatMap (·.step.decls) := by
    refine (List.mem_append.mp hd).resolve_left fun hparam => ?_
    simp [h.params d hparam] at hlocal
  rw [← hlocals] at hnodup hmem
  have hone := existsUnique_of_nodup_flatMap (List.nodup_append.mp hnodup).2.1 hmem
  refine (existsUnique_congr fun i => ?_).mp hone
  constructor
  · rintro ⟨s, hs, hds⟩
    rw [Array.getElem?_toList] at hs
    cases s with
    | decl j d' =>
        cases Option.mem_toList.mp hds
        obtain rfl : j = i := (hbody.stmts i _ hs).1
        exact hs
    | _ => cases Option.mem_toList.mp hds
  · intro hs
    exact ⟨_, Array.getElem?_toList ▸ hs, by simp [Stmt.decl?]⟩

end Function

namespace Fixture

variable {known : String → Prop}

theorem scope_boundReturn (f : Fixture) (file : FileId) :
    Scope.of (f.params.map Param.name) = (f.boundReturn file).2.scope := by
  have hparams := (Param.bindList_adds file f.params .empty).scope_eq
  have hsame : (f.boundReturn file).2.scope = (f.boundParams file).2.scope := by
    rw [boundReturn]
    cases f.returnTy <;> simp [LoanScope.Body.addType?, LoanScope.Body.scope]
  rw [hsame, boundParams, hparams, (Param.bindList_spec file f.params .empty).1]
  simp [Scope.of, LoanScope.Body.scope, LoanScope.Body.empty]

theorem adds_boundReturn (f : Fixture) (file : FileId) :
    LoanScope.Body.empty.Adds (f.boundReturn file).2 [] (f.boundParams file).1 [] := by
  have hparams := Param.bindList_adds file f.params .empty
  rw [boundReturn, boundParams]
  cases f.returnTy with
  | none => exact hparams
  | some t => simpa [LoanScope.Body.addType?] using hparams.trans (LoanScope.Body.adds_addType _ t)

theorem wellFormed_boundReturn (f : Fixture) (file : FileId) (hnames : ∀ x ∈ f.names, known x) :
    (f.boundReturn file).2.WellFormed known ∧
      ∀ r, (f.boundReturn file).1 = some r → (f.boundReturn file).2.typeAt? r.id = some r.ty := by
  simp only [names, List.cons_append, List.mem_cons, List.mem_append] at hnames
  have hparams : (f.boundParams file).2.WellFormed known :=
    Param.bindList_wellFormed wellFormed_empty fun x hx => hnames x (.inr (.inl (.inl hx)))
  refine (hparams.addType? ?_ rfl).2
  intro t ht x hx
  exact hnames x (.inr (.inl (.inr (by simpa [ht] using hx))))

theorem boundNodes_places {f : Fixture} {file : FileId}
    {bound : List LoanScope.Node × LoanScope.Body} (h : f.boundNodes file = .ok bound)
    (hnames : ∀ x ∈ f.names, known x) :
    Node.ListPlaces known file (f.boundReturn file).2 bound.2 f.sortedNodes bound.1 := by
  refine Node.bindList_places h (f.wellFormed_boundReturn file hnames).1
    (f.scope_boundReturn file) ?_
  intro x hx
  exact hnames x (by simp only [names, List.mem_append]; exact .inr hx)

/-- The function of a fixture has all parts of the fixture in order. -/
theorem toFunction_laidOut {f : Fixture} {file : FileId} {function : Function}
    (h : f.toFunction file = .ok function) : function.LaidOut := by
  obtain ⟨-, bound, hbound, hfunction⟩ := toFunction_eq_ok.mp h
  obtain ⟨graph, -, rfl⟩ := map_eq_ok.mp hfunction
  have hplaces := boundNodes_places hbound fun x hx => NameTable.knows_ofList hx
  have hadds := (f.adds_boundReturn file).trans hplaces.adds
  refine ⟨?_, ?_, ?_, fun d hd => Param.isParam_of_mem_bindList hd, hplaces.locals⟩
  · simpa [LoanScope.Body.empty, Function.roots] using hadds.exprs
  · simpa [LoanScope.Body.empty] using hadds.decls
  · simpa [LoanScope.Body.empty] using hadds.stmts

/-- All numbers in the function of a fixture lead to the parts that they stand for. -/
theorem toFunction_wellFormed {f : Fixture} {file : FileId} {function : Function}
    (h : f.toFunction file = .ok function) :
    function.WellFormed ∧ List.Forall₂ (Node.Marks file) f.sortedNodes function.nodes := by
  have hlaid := toFunction_laidOut h
  obtain ⟨-, bound, hbound, hfunction⟩ := toFunction_eq_ok.mp h
  obtain ⟨graph, -, rfl⟩ := map_eq_ok.mp hfunction
  have hknown : ∀ x ∈ f.names, (NameTable.ofList f.names).Knows x :=
    fun x hx => NameTable.knows_ofList hx
  have hplaces := boundNodes_places hbound hknown
  have hbody := hplaces.wellFormed
  refine ⟨⟨hbody, hknown f.name (by simp [names]), ?_, ?_, ?_, ?_, ?_, hlaid.stmts.symm⟩,
    hplaces.marks⟩
  · intro d hd
    refine ⟨hlaid.params d hd, hbody.getElem?_decl ?_⟩
    rw [hlaid.decls]
    exact List.mem_append_left _ hd
  · intro r hr
    exact hplaces.adds.typeAt? ((f.wellFormed_boundReturn file hknown).2 r hr)
  · intro node hnode
    refine ⟨?_, ?_, hplaces.live node hnode⟩
    · intro s hs
      refine hbody.getElem?_stmt ?_
      rw [hlaid.stmts]
      exact List.mem_flatMap.mpr ⟨node, hnode, hs⟩
    · intro e he
      refine (hbody.getElem?_expr ?_).2
      rw [hlaid.exprs]
      refine LoanScope.Expr.mem_listParts_self (List.mem_flatMap.mpr ⟨node, hnode, ?_⟩)
      exact List.mem_append_right _ (Option.mem_toList.mpr he)
  · exact fun i => hlaid.existsUnique_parent hbody
  · exact fun d => hlaid.existsUnique_subject hbody

end Fixture

end LoanScope
