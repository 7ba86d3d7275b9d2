import LoanScope.Proofs.Data.List
import LoanScope.Proofs.Function.Outcome

/-! Bodies whose parts are found under their numbers, each after all that it is built from, and how
they grow: a part that refers to parts of the body may be added with the next number. -/

namespace LoanScope

/-! ### Parts -/

namespace TypeEntry

/-- The number of what a type is built from. -/
def inner? : TypeEntry → Option TypeId
  | pointer i | qualified _ i | typedef _ i => some i
  | _ => none

/-- The name that an entry holds itself. -/
def ownNames : TypeEntry → List String
  | typedef name _ | elaborated _ name => [name]
  | _ => []

variable {entry : TypeEntry} {type? type?' : TypeId → Option CType} {t : CType}

/-- An entry is put together from the type under its number only. -/
theorem build?_mono (h : ∀ i t, entry.inner? = some i → type? i = some t → type?' i = some t)
    (ht : entry.build? type? = some t) : entry.build? type?' = some t := by
  cases entry <;> simp_all [build?, inner?] <;> grind

/-- The names of a type are its own and those of what it is built from. -/
theorem mem_names_of_build? (ht : entry.build? type? = some t) {x : String} (hx : x ∈ t.names) :
    x ∈ entry.ownNames ∨ ∃ i u, entry.inner? = some i ∧ type? i = some u ∧ x ∈ u.names := by
  cases entry <;> simp_all [build?, inner?, ownNames] <;> grind [CType.names]

end TypeEntry

namespace Expr

def typeRef? : Expr → Option TypeRef
  | call _ _ _ _ ty => ty
  | _ => none

def target? : Expr → Option Variable
  | var _ _ v => some v
  | _ => none

/-- The names that an expression holds itself. -/
def ownNames : Expr → List String
  | var _ _ v => [v.name]
  | call _ _ callee _ _ => [callee]
  | member _ _ _ field _ => [field]
  | _ => []

end Expr

mutual

/-- The expression after all that it is built from. -/
def Expr.parts : Expr → List Expr
  | .lit id span value => [.lit id span value]
  | .var id span v => [.var id span v]
  | .binary id span op left right => left.parts ++ right.parts ++ [.binary id span op left right]
  | .unary id span op e => e.parts ++ [.unary id span op e]
  | .call id span callee args ty => Expr.listParts args ++ [.call id span callee args ty]
  | .paren id span e => e.parts ++ [.paren id span e]
  | .member id span e field arrow => e.parts ++ [.member id span e field arrow]

def Expr.listParts : List Expr → List Expr
  | [] => []
  | e :: rest => e.parts ++ Expr.listParts rest

end

namespace Expr

theorem parts_eq (e : Expr) : e.parts = listParts e.children ++ [e] := by
  cases e <;> simp [parts, listParts, children]

@[simp] theorem listParts_nil : listParts [] = [] := rfl

theorem listParts_cons (e : Expr) (rest : List Expr) :
    listParts (e :: rest) = listParts e.children ++ e :: listParts rest := by
  rw [listParts, parts_eq, List.append_assoc, List.singleton_append]

theorem listParts_append (es fs : List Expr) :
    listParts (es ++ fs) = listParts es ++ listParts fs := by
  induction es with
  | nil => rfl
  | cons e rest ih => simp [listParts_cons, ih]

theorem listParts_eq_flatMap (es : List Expr) : listParts es = es.flatMap parts := by
  induction es with
  | nil => rfl
  | cons e rest ih => rw [listParts, ih, List.flatMap_cons]

theorem mem_listParts_self {e : Expr} {es : List Expr} (h : e ∈ es) : e ∈ listParts es := by
  induction es with
  | nil => simp at h
  | cons first rest ih =>
      rw [listParts_cons]
      rcases List.mem_cons.mp h with rfl | h
      · simp
      · simp [ih h]

end Expr

mutual

theorem Expr.children_induction {motive : List Expr → Prop} (nil : motive [])
    (cons : ∀ e rest, motive e.children → motive rest → motive (e :: rest)) :
    ∀ e : Expr, motive e.children
  | .lit .. => nil
  | .var .. => nil
  | .binary _ _ _ left right =>
      cons left [right] (Expr.children_induction nil cons left)
        (cons right [] (Expr.children_induction nil cons right) nil)
  | .unary _ _ _ e => cons e [] (Expr.children_induction nil cons e) nil
  | .call _ _ _ args _ => Expr.forest_induction nil cons args
  | .paren _ _ e => cons e [] (Expr.children_induction nil cons e) nil
  | .member _ _ e _ _ => cons e [] (Expr.children_induction nil cons e) nil

/-- Induction over expressions in a row, each by its children. -/
theorem Expr.forest_induction {motive : List Expr → Prop} (nil : motive [])
    (cons : ∀ e rest, motive e.children → motive rest → motive (e :: rest)) :
    ∀ es : List Expr, motive es
  | [] => nil
  | e :: rest =>
      cons e rest (Expr.children_induction nil cons e) (Expr.forest_induction nil cons rest)

end

/-- Of the parts of expressions in a row, each is the child of one part, or is one of the row. -/
theorem Expr.perm_listParts (es : List Expr) :
    ((listParts es).flatMap children ++ es).Perm (listParts es) := by
  induction es using Expr.forest_induction with
  | nil => exact .refl _
  | cons e rest ihchildren ihrest =>
      rw [listParts_cons, List.flatMap_append, List.flatMap_cons]
      have hrest : ((listParts rest).flatMap children ++ e :: rest).Perm (e :: listParts rest) :=
        List.perm_middle.trans (ihrest.cons e)
      simpa using ihchildren.append hrest

/-! ### Bodies -/

/-- The name has a symbol, which stands for it. -/
def NameTable.Knows (t : NameTable) (x : String) : Prop :=
  ∃ symbol, t.get? x = some symbol ∧ t.resolve? symbol = some x

/-- What an expression is built from has smaller numbers, and all that it refers to is found in the
body. -/
structure Expr.StoredIn (known : String → Prop) (b : Body) (e : Expr) : Prop where
  children : ∀ c ∈ e.children, c.id < e.id ∧ b.exprs[c.id]? = some c
  type : ∀ r, e.typeRef? = some r → b.typeAt? r.id = some r.ty
  target : ∀ v, e.target? = some v → ∃ d, b.decls[v.decl]? = some d ∧ d.name = v.name
  names : ∀ x ∈ e.ownNames, known x

structure Decl.StoredIn (known : String → Prop) (b : Body) (d : Decl) : Prop where
  type : b.typeAt? d.ty.id = some d.ty.ty
  init : ∀ e, d.init = some e → b.exprs[e.id]? = some e
  name : known d.name

namespace Stmt

def decl? : Stmt → Option Decl
  | decl _ d => some d
  | _ => none

/-- The expression that a statement evaluates. -/
def root? : Stmt → Option Expr
  | decl _ d => d.init
  | expr _ e => some e
  | label .. => none

def ownNames : Stmt → List String
  | label _ name _ => [name]
  | _ => []

structure StoredIn (known : String → Prop) (b : Body) (s : Stmt) : Prop where
  decl : ∀ d, s.decl? = some d → b.decls[d.id]? = some d
  root : ∀ e, s.root? = some e → b.exprs[e.id]? = some e
  names : ∀ x ∈ s.ownNames, known x

end Stmt

namespace Step

def stmts : Step → List Stmt
  | instructions stmts => stmts
  | _ => []

/-- The expression that a node evaluates if it is no list of statements. -/
def expr? : Step → Option Expr
  | branch e => some e
  | loop e => some e
  | switch e _ => some e
  | ret value _ => value
  | _ => none

/-- The expressions of a node that are no part of another. -/
def roots (s : Step) : List Expr := s.stmts.filterMap Stmt.root? ++ s.expr?.toList

theorem decls_eq (s : Step) : s.decls = s.stmts.filterMap Stmt.decl? := by
  cases s with
  | instructions stmts =>
      refine congrArg (List.filterMap · stmts) (funext fun s => ?_)
      cases s <;> rfl
  | _ => rfl

end Step

namespace Body

/-- Every part is found under its number, after all that it is built from. -/
structure WellFormed (known : String → Prop) (b : Body) : Prop where
  /-- A type comes right after the one that it is built from. -/
  types : ∀ (i : TypeId) (entry : TypeEntry), b.types[i]? = some entry →
    (∀ j, entry.inner? = some j → i = j + 1) ∧ ∀ x ∈ entry.ownNames, known x
  exprs : ∀ (i : ExprId) (e : Expr), b.exprs[i]? = some e → e.id = i ∧ e.StoredIn known b
  decls : ∀ (i : DeclId) (d : Decl), b.decls[i]? = some d → d.id = i ∧ d.StoredIn known b
  stmts : ∀ (i : StmtId) (s : Stmt), b.stmts[i]? = some s → s.id = i ∧ s.StoredIn known b

/-- The variables declared so far, the last first. -/
def scope (b : Body) : Scope := (b.decls.toList.map Decl.variable).reverse

/-- The second body is the first one with more parts at the end. -/
structure Adds (b b' : Body) (exprs : List Expr) (decls : List Decl) (stmts : List Stmt) :
    Prop where
  types : b.types.toList <+: b'.types.toList
  exprs : b'.exprs.toList = b.exprs.toList ++ exprs
  decls : b'.decls.toList = b.decls.toList ++ decls
  stmts : b'.stmts.toList = b.stmts.toList ++ stmts

theorem Adds.trans {b b₁ b₂ : Body} {es es' : List Expr} {ds ds' : List Decl} {ss ss' : List Stmt}
    (h : b.Adds b₁ es ds ss) (h' : b₁.Adds b₂ es' ds' ss') :
    b.Adds b₂ (es ++ es') (ds ++ ds') (ss ++ ss') where
  types := h.types.trans h'.types
  exprs := by rw [h'.exprs, h.exprs, List.append_assoc]
  decls := by rw [h'.decls, h.decls, List.append_assoc]
  stmts := by rw [h'.stmts, h.stmts, List.append_assoc]

variable {known : String → Prop} {b b' : Body} {es : List Expr} {ds : List Decl} {ss : List Stmt}

/-! What is found under a number stays there. -/

theorem typeAt?_of_isPrefix (h : b.types.toList <+: b'.types.toList) {i : TypeId} {t : CType}
    (hi : b.typeAt? i = some t) : b'.typeAt? i = some t := by
  induction i using Nat.strong_induction_on generalizing t with
  | _ i ih =>
      rw [typeAt?, Option.bind_eq_bind, Option.bind_eq_some_iff] at hi ⊢
      obtain ⟨entry, hentry, hbuild⟩ := hi
      refine ⟨entry, getElem?_of_toList_isPrefix h hentry, TypeEntry.build?_mono ?_ hbuild⟩
      intro j u _ hj
      split at hj
      · rename_i hlt
        rw [if_pos hlt]
        exact ih j hlt hj
      · cases hj

theorem Adds.typeAt? (h : b.Adds b' es ds ss) {i : TypeId} {t : CType}
    (hi : b.typeAt? i = some t) : b'.typeAt? i = some t :=
  typeAt?_of_isPrefix h.types hi

theorem Adds.getElem?_exprs (h : b.Adds b' es ds ss) {i : Nat} {e : Expr}
    (hi : b.exprs[i]? = some e) : b'.exprs[i]? = some e :=
  getElem?_of_toList_isPrefix ⟨es, h.exprs.symm⟩ hi

theorem Adds.getElem?_decls (h : b.Adds b' es ds ss) {i : Nat} {d : Decl}
    (hi : b.decls[i]? = some d) : b'.decls[i]? = some d :=
  getElem?_of_toList_isPrefix ⟨ds, h.decls.symm⟩ hi

theorem Adds.storedIn_expr (h : b.Adds b' es ds ss) {e : Expr} (he : e.StoredIn known b) :
    e.StoredIn known b' where
  children := fun c hc => ⟨(he.children c hc).1, h.getElem?_exprs (he.children c hc).2⟩
  type := fun r hr => h.typeAt? (he.type r hr)
  target := by
    intro v hv
    obtain ⟨d, hd, hname⟩ := he.target v hv
    exact ⟨d, h.getElem?_decls hd, hname⟩
  names := he.names

theorem Adds.storedIn_decl (h : b.Adds b' es ds ss) {d : Decl} (hd : d.StoredIn known b) :
    d.StoredIn known b' where
  type := h.typeAt? hd.type
  init := fun e he => h.getElem?_exprs (hd.init e he)
  name := hd.name

theorem Adds.storedIn_stmt (h : b.Adds b' es ds ss) {s : Stmt} (hs : s.StoredIn known b) :
    s.StoredIn known b' where
  decl := fun d hd => h.getElem?_decls (hs.decl d hd)
  root := fun e he => h.getElem?_exprs (hs.root e he)
  names := hs.names

/-! Each part is added after those that it refers to. -/

/-- A body stays well formed if the new parts have the next numbers and refer to parts of the
body. -/
theorem WellFormed.extend (hb : b.WellFormed known) (h : b.Adds b' es ds ss)
    (htypes : ∀ (i : TypeId) (entry : TypeEntry), b'.types[i]? = some entry →
      (∀ j, entry.inner? = some j → i = j + 1) ∧ ∀ x ∈ entry.ownNames, known x)
    (hes : ∀ (j : Nat) (e : Expr), es[j]? = some e →
      e.id = b.exprs.size + j ∧ e.StoredIn known b')
    (hds : ∀ (j : Nat) (d : Decl), ds[j]? = some d →
      d.id = b.decls.size + j ∧ d.StoredIn known b')
    (hss : ∀ (j : Nat) (s : Stmt), ss[j]? = some s →
      s.id = b.stmts.size + j ∧ s.StoredIn known b') :
    b'.WellFormed known := by
  refine ⟨htypes, ?_, ?_, ?_⟩
  · intro i e hi
    rcases getElem?_of_append h.exprs hi with hold | ⟨j, rfl, hnew⟩
    · exact ⟨(hb.exprs i e hold).1, h.storedIn_expr (hb.exprs i e hold).2⟩
    · exact hes j e hnew
  · intro i d hi
    rcases getElem?_of_append h.decls hi with hold | ⟨j, rfl, hnew⟩
    · exact ⟨(hb.decls i d hold).1, h.storedIn_decl (hb.decls i d hold).2⟩
    · exact hds j d hnew
  · intro i s hi
    rcases getElem?_of_append h.stmts hi with hold | ⟨j, rfl, hnew⟩
    · exact ⟨(hb.stmts i s hold).1, h.storedIn_stmt (hb.stmts i s hold).2⟩
    · exact hss j s hnew

theorem adds_pushType (b : Body) (entry : TypeEntry) : b.Adds (b.pushType entry).2 [] [] [] := by
  constructor <;> simp [pushType]

/-- An entry leads to its type if what it is built from is there already. -/
theorem typeAt?_pushType {entry : TypeEntry} {t : CType} (ht : entry.build? b.typeAt? = some t)
    (hlt : ∀ j, entry.inner? = some j → j < b.types.size) :
    (b.pushType entry).2.typeAt? (b.pushType entry).1 = some t := by
  have hentry : (b.pushType entry).2.types[(b.pushType entry).1]? = some entry :=
    Array.getElem?_push_size
  rw [typeAt?, hentry]
  refine TypeEntry.build?_mono ?_ ht
  intro j u hj hu
  have hbelow : j < (b.pushType entry).1 := hlt j hj
  rw [if_pos hbelow]
  exact (b.adds_pushType entry).typeAt? hu

theorem WellFormed.pushType (hb : b.WellFormed known) {entry : TypeEntry}
    (hinner : ∀ j, entry.inner? = some j → b.types.size = j + 1)
    (hnames : ∀ x ∈ entry.ownNames, known x) : (b.pushType entry).2.WellFormed known := by
  refine hb.extend (b.adds_pushType entry) ?_ (by simp) (by simp) (by simp)
  have htypes : (b.pushType entry).2.types.toList = b.types.toList ++ [entry] := Array.toList_push
  intro i entry' hi
  rcases getElem?_of_append htypes hi with hold | ⟨j, rfl, hnew⟩
  · exact hb.types i entry' hold
  · obtain ⟨rfl, rfl⟩ : j = 0 ∧ entry = entry' := by cases j <;> simp_all
    exact ⟨hinner, hnames⟩

/-- The entries of a type come one right after the other, the last one under the type's number. -/
structure PlacesType (known : String → Prop) (b b' : Body) (i : TypeId) (t : CType) : Prop where
  adds : b.Adds b' [] [] []
  size : b'.types.size = i + 1
  found : b'.typeAt? i = some t
  wellFormed : b'.WellFormed known

theorem PlacesType.pushType {i : TypeId} {t : CType} (h : PlacesType known b b' i t)
    {entry : TypeEntry} (hinner : entry.inner? = some i) {t' : CType}
    (ht : entry.build? b'.typeAt? = some t') (hnames : ∀ x ∈ entry.ownNames, known x) :
    PlacesType known b (b'.pushType entry).2 (b'.pushType entry).1 t' := by
  have hlast : ∀ j, entry.inner? = some j → b'.types.size = j + 1 := by
    intro j hj
    rw [hinner] at hj
    cases hj
    exact h.size
  refine ⟨by simpa using h.adds.trans (b'.adds_pushType entry), Array.size_push .., ?_,
    h.wellFormed.pushType hlast hnames⟩
  refine typeAt?_pushType ht fun j hj => ?_
  rw [hlast j hj]
  exact Nat.lt_succ_self j

theorem WellFormed.pushFirstType (hb : b.WellFormed known) {entry : TypeEntry}
    (hinner : entry.inner? = none) {t : CType} (ht : entry.build? b.typeAt? = some t)
    (hnames : ∀ x ∈ entry.ownNames, known x) :
    PlacesType known b (b.pushType entry).2 (b.pushType entry).1 t :=
  ⟨b.adds_pushType entry, Array.size_push .., typeAt?_pushType ht (by simp [hinner]),
    hb.pushType (by simp [hinner]) hnames⟩

theorem WellFormed.placeType (hb : b.WellFormed known) (t : CType) (ht : ∀ x ∈ t.names, known x) :
    PlacesType known b (b.placeType t).2 (b.placeType t).1 t := by
  induction t with
  | builtin kind => exact hb.pushFirstType rfl rfl (by simp [TypeEntry.ownNames])
  | elaborated keyword name => exact hb.pushFirstType rfl rfl ht
  | pointer pointee ih =>
      have hinner := ih ht
      exact hinner.pushType rfl (by simp [TypeEntry.build?, hinner.found])
        (by simp [TypeEntry.ownNames])
  | qualified qualifiers inner ih =>
      have hinner := ih ht
      exact hinner.pushType rfl (by simp [TypeEntry.build?, hinner.found])
        (by simp [TypeEntry.ownNames])
  | typedef name underlying ih =>
      simp only [CType.names, List.mem_cons] at ht
      have hinner := ih fun x hx => ht x (.inr hx)
      exact hinner.pushType rfl (by simp [TypeEntry.build?, hinner.found])
        fun x hx => ht x (.inl (List.mem_singleton.mp hx))

theorem adds_addType (b : Body) (t : CType) : b.Adds (b.addType t).2 [] [] [] := by
  induction t with
  | builtin _ | elaborated _ _ => exact b.adds_pushType _
  | pointer _ ih | qualified _ _ ih | typedef _ _ ih =>
      exact Adds.trans ih (adds_pushType _ _)

/-- The names of a type in the body are known. -/
theorem WellFormed.known_of_typeAt? (hb : b.WellFormed known) {i : TypeId} {t : CType}
    (hi : b.typeAt? i = some t) {x : String} (hx : x ∈ t.names) : known x := by
  induction i using Nat.strong_induction_on generalizing t with
  | _ i ih =>
      rw [Body.typeAt?, Option.bind_eq_bind, Option.bind_eq_some_iff] at hi
      obtain ⟨entry, hentry, hbuild⟩ := hi
      rcases TypeEntry.mem_names_of_build? hbuild hx with hown | ⟨j, u, -, hj, hu⟩
      · exact (hb.types i entry hentry).2 x hown
      · split at hj
        · rename_i hlt
          exact ih j hlt hj hu
        · cases hj

theorem adds_pushExpr (b : Body) (e : Expr) :
    b.Adds { b with exprs := b.exprs.push e } [e] [] [] := by
  constructor <;> simp

theorem WellFormed.pushExpr (hb : b.WellFormed known) {e : Expr} (hid : e.id = b.exprs.size)
    (he : e.StoredIn known b) : { b with exprs := b.exprs.push e }.WellFormed known := by
  have hadds := b.adds_pushExpr e
  refine hb.extend hadds hb.types ?_ (by simp) (by simp)
  intro j e' hj
  obtain ⟨rfl, rfl⟩ : j = 0 ∧ e = e' := by cases j <;> simp_all
  exact ⟨hid, hadds.storedIn_expr he⟩

theorem adds_pushDecl (b : Body) (d : Decl) :
    b.Adds { b with decls := b.decls.push d } [] [d] [] := by
  constructor <;> simp

theorem WellFormed.pushDecl (hb : b.WellFormed known) {d : Decl} (hid : d.id = b.decls.size)
    (hd : d.StoredIn known b) : { b with decls := b.decls.push d }.WellFormed known := by
  have hadds := b.adds_pushDecl d
  refine hb.extend hadds hb.types (by simp) ?_ (by simp)
  intro j d' hj
  obtain ⟨rfl, rfl⟩ : j = 0 ∧ d = d' := by cases j <;> simp_all
  exact ⟨hid, hadds.storedIn_decl hd⟩

theorem adds_pushStmt (b : Body) (s : Stmt) :
    b.Adds { b with stmts := b.stmts.push s } [] [] [s] := by
  constructor <;> simp

theorem WellFormed.pushStmt (hb : b.WellFormed known) {s : Stmt} (hid : s.id = b.stmts.size)
    (hs : s.StoredIn known b) : { b with stmts := b.stmts.push s }.WellFormed known := by
  have hadds := b.adds_pushStmt s
  refine hb.extend hadds hb.types (by simp) (by simp) ?_
  intro j s' hj
  obtain ⟨rfl, rfl⟩ : j = 0 ∧ s = s' := by cases j <;> simp_all
  exact ⟨hid, hadds.storedIn_stmt hs⟩

/-- An expression of the body is found under its number. -/
theorem WellFormed.getElem?_expr (hb : b.WellFormed known) {e : Expr} (he : e ∈ b.exprs.toList) :
    e.id < b.exprs.size ∧ b.exprs[e.id]? = some e := by
  obtain ⟨i, hi⟩ := List.mem_iff_getElem?.mp he
  rw [Array.getElem?_toList] at hi
  obtain rfl := (hb.exprs i e hi).1
  exact ⟨(Array.getElem?_eq_some_iff.mp hi).1, hi⟩

/-- A declaration of the body is found under its number. -/
theorem WellFormed.getElem?_decl (hb : b.WellFormed known) {d : Decl} (hd : d ∈ b.decls.toList) :
    b.decls[d.id]? = some d := by
  obtain ⟨i, hi⟩ := List.mem_iff_getElem?.mp hd
  rw [Array.getElem?_toList] at hi
  obtain rfl := (hb.decls i d hi).1
  exact hi

theorem WellFormed.getElem?_stmt (hb : b.WellFormed known) {s : Stmt} (hs : s ∈ b.stmts.toList) :
    b.stmts[s.id]? = some s := by
  obtain ⟨i, hi⟩ := List.mem_iff_getElem?.mp hs
  rw [Array.getElem?_toList] at hi
  obtain rfl := (hb.stmts i s hi).1
  exact hi

theorem WellFormed.getElem?_of_mem_scope (hb : b.WellFormed known) {v : Variable}
    (hv : v ∈ b.scope) :
    ∃ d, b.decls[v.decl]? = some d ∧ d.name = v.name := by
  rw [Body.scope, List.mem_reverse] at hv
  obtain ⟨d, hd, rfl⟩ := List.mem_map.mp hv
  exact ⟨d, hb.getElem?_decl hd, rfl⟩

theorem Adds.scope_eq (h : b.Adds b' es ds ss) :
    b'.scope = (ds.map Decl.variable).reverse ++ b.scope := by
  simp [Body.scope, h.decls]

theorem WellFormed.addType? (hb : b.WellFormed known) {ty : Option CType} {ref : Option TypeRef}
    (hnames : ∀ t, ty = some t → ∀ x ∈ t.names, known x) (h : b.addType? ty = (ref, b')) :
    b.Adds b' [] [] [] ∧ b'.WellFormed known ∧ ∀ r, ref = some r → b'.typeAt? r.id = some r.ty := by
  cases ty with
  | none =>
      cases h
      exact ⟨by constructor <;> simp, hb, by simp⟩
  | some t =>
      cases h
      have htyped := hb.placeType t (hnames t rfl)
      refine ⟨htyped.adds, htyped.wellFormed, ?_⟩
      rintro r ⟨⟩
      exact htyped.found

/-- What is bound in a node: a well-formed body with more parts, all expressions of which have one
span, and a scope of all variables declared so far. -/
structure Places (known : String → Prop) (span : FileSpan) (b b' : Body) (scope : Scope)
    (exprs : List Expr) (decls : List Decl) (stmts : List Stmt) : Prop where
  adds : b.Adds b' exprs decls stmts
  spans : ∀ e ∈ exprs, e.span = span
  locals : ∀ d ∈ decls, d.isParam = false
  wellFormed : b'.WellFormed known
  scope : scope = b'.scope

theorem WellFormed.places_self (hb : b.WellFormed known) (span : FileSpan) :
    Places known span b b b.scope [] [] [] :=
  ⟨by constructor <;> simp, by simp, by simp, hb, rfl⟩

theorem Places.trans {known : String → Prop} {span : FileSpan} {b b₁ b₂ : Body}
    {scope scope' : Scope} {es es' : List Expr} {ds ds' : List Decl} {ss ss' : List Stmt}
    (h : Places known span b b₁ scope es ds ss) (h' : Places known span b₁ b₂ scope' es' ds' ss') :
    Places known span b b₂ scope' (es ++ es') (ds ++ ds') (ss ++ ss') where
  adds := h.adds.trans h'.adds
  spans := by
    intro e he
    rcases List.mem_append.mp he with he | he
    · exact h.spans e he
    · exact h'.spans e he
  locals := by
    intro d hd
    rcases List.mem_append.mp hd with hd | hd
    · exact h.locals d hd
    · exact h'.locals d hd
  wellFormed := h'.wellFormed
  scope := h'.scope

theorem Places.pushDecl {span : FileSpan} {scope : Scope}
    (h : Places known span b b' scope es ds ss) {d : Decl} (hid : d.id = b'.decls.size)
    (hd : d.StoredIn known b') (hlocal : d.isParam = false) :
    Places known span b { b' with decls := b'.decls.push d } (d.variable :: scope) es
      (ds ++ [d]) ss where
  adds := by simpa using h.adds.trans (b'.adds_pushDecl d)
  spans := h.spans
  locals := by
    intro d' hd'
    rcases List.mem_append.mp hd' with hd' | hd'
    · exact h.locals d' hd'
    · rwa [List.mem_singleton.mp hd']
  wellFormed := h.wellFormed.pushDecl hid hd
  scope := by simp [h.scope, (b'.adds_pushDecl d).scope_eq]

theorem Places.pushStmt {span : FileSpan} {scope : Scope}
    (h : Places known span b b' scope es ds ss) {s : Stmt} (hid : s.id = b'.stmts.size)
    (hs : s.StoredIn known b') :
    Places known span b { b' with stmts := b'.stmts.push s } scope es ds (ss ++ [s]) where
  adds := by simpa using h.adds.trans (b'.adds_pushStmt s)
  spans := h.spans
  locals := h.locals
  wellFormed := h.wellFormed.pushStmt hid hs
  scope := h.scope

theorem Places.getElem?_expr {span : FileSpan} {scope : Scope}
    (h : Places known span b b' scope (Expr.listParts es) ds ss) {e : Expr} (he : e ∈ es) :
    b'.exprs[e.id]? = some e := by
  refine (h.wellFormed.getElem?_expr ?_).2
  rw [h.adds.exprs]
  exact List.mem_append_right _ (Expr.mem_listParts_self he)

end Body

end LoanScope
