import LoanScope.Proofs.Json.ReadBack
import LoanScope.Report

/-! What is written of a fixture is read as that fixture, however deep its types and expressions are
nested. Hence a fixture that is read and written again stays the same from then on, and means what
it meant. -/

namespace LoanScope

open Json

/-! ### Names -/

@[simp] theorem Builtin.ofName?_name (kind : Builtin) : ofName? kind.name = some kind := by
  cases kind <;> decide

@[simp] theorem TagKeyword.ofName?_name (keyword : TagKeyword) :
    ofName? keyword.name = some keyword := by
  cases keyword <;> decide

@[simp] theorem BinaryOp.ofName?_name (op : BinaryOp) : ofName? op.name = some op := by
  cases op <;> decide

@[simp] theorem UnaryOp.ofName?_name (op : UnaryOp) : ofName? op.name = some op := by
  cases op <;> decide

/-! ### Types -/

@[simp] theorem Span.ofJson?_toJson (s : Span) : Span.ofJson? s.toJson = some s := by
  simp [toJson, ofJson?]

@[simp] theorem Qualifiers.ofJson?_toJson (q : Qualifiers) :
    Qualifiers.ofJson? q.toJson = some q := by
  simp [toJson, ofJson?]

namespace CType

theorem ofJson?_null (positions : Bool) (depth : Nat) : ofJson? positions depth null = none := by
  cases depth <;> rfl

theorem depth_toJson_pos (t : CType) : 0 < t.toJson.depth := by
  cases t <;> simp [toJson, Json.depth]

theorem ofJson?_toJson (positions : Bool) {depth : Nat} {t : CType} (h : t.toJson.depth ≤ depth) :
    ofJson? positions depth t.toJson = some t := by
  induction depth generalizing positions t with
  | zero =>
      have hpos := t.depth_toJson_pos
      omega
  | succ depth ih =>
      cases t with
      | builtin kind => simp [toJson, ofJson?, tags]
      | pointer pointee =>
          have hpointee : pointee.toJson.depth ≤ depth := by simpa [toJson] using h
          simp [toJson, ofJson?, tags, ih true hpointee]
      | qualified qualifiers inner =>
          obtain ⟨-, hinner⟩ : qualifiers.toJson.depth ≤ depth ∧ inner.toJson.depth ≤ depth := by
            simpa [toJson] using h
          simp [toJson, ofJson?, tags, ih true hinner]
      | typedef name underlying =>
          have hunderlying : underlying.toJson.depth ≤ depth := by simpa [toJson] using h
          simp [toJson, ofJson?, tags, ih true hunderlying]
      | elaborated keyword name => simp [toJson, ofJson?, tags]

theorem nullable?_toJson (positions : Bool) {depth : Nat} {ty : Option CType}
    (h : (ofOption toJson ty).depth ≤ depth) :
    nullable? (ofJson? positions depth) (ofOption toJson ty) = some ty := by
  refine nullable?_ofOption (ofJson?_null positions depth) fun t ht => ?_
  obtain rfl : ty = some t := ht
  exact ofJson?_toJson positions h

end CType

namespace Fixture

/-! ### Expressions -/

namespace Expr

theorem ofJson?_null (depth : Nat) : ofJson? depth null = none := by
  cases depth <;> rfl

theorem depth_toJson_pos (e : Expr) : 0 < e.toJson.depth := by
  cases e with
  | lit value => cases value <;> simp [toJson, Literal.toJson, Json.depth]
  | _ => simp [toJson, Json.depth]

theorem arr_listToJson (args : List Expr) : arr (listToJson args) = ofList toJson args := by
  rw [ofList]
  congr 1
  induction args with
  | nil => rfl
  | cons e rest ih => rw [listToJson, ih, List.map_cons]

/-- The induction is on the depth, so that it reaches the arguments of a call. -/
theorem ofJson?_toJson {depth : Nat} {e : Expr} (h : e.toJson.depth ≤ depth) :
    ofJson? depth e.toJson = some e := by
  induction depth generalizing e with
  | zero =>
      have hpos := e.depth_toJson_pos
      omega
  | succ depth ih =>
      cases e with
      | lit value => cases value <;> simp [toJson, Literal.toJson, ofJson?, tags]
      | var name => simp [toJson, ofJson?, tags]
      | assign left right =>
          obtain ⟨hleft, hright⟩ : left.toJson.depth ≤ depth ∧ right.toJson.depth ≤ depth := by
            simpa [toJson] using h
          simp [toJson, ofJson?, tags, ih hleft, ih hright]
      | binary op left right =>
          obtain ⟨hleft, hright⟩ : left.toJson.depth ≤ depth ∧ right.toJson.depth ≤ depth := by
            simpa [toJson] using h
          simp [toJson, ofJson?, tags, ih hleft, ih hright]
      | addrOf operand =>
          have hoperand : operand.toJson.depth ≤ depth := by simpa [toJson] using h
          simp [toJson, ofJson?, tags, ih hoperand]
      | deref operand =>
          have hoperand : operand.toJson.depth ≤ depth := by simpa [toJson] using h
          simp [toJson, ofJson?, tags, ih hoperand]
      | unary op operand =>
          have hoperand : operand.toJson.depth ≤ depth := by simpa [toJson] using h
          simp [toJson, ofJson?, tags, ih hoperand]
      | call callee args ty =>
          obtain ⟨hargs, hty⟩ :
              (ofList toJson args).depth ≤ depth ∧ (ofOption CType.toJson ty).depth ≤ depth := by
            simpa [toJson, arr_listToJson] using h
          have hreads : list? (ofJson? depth) (ofList toJson args) = some args :=
            list?_ofList_of_depth (fun _ => ih) hargs
          simp [toJson, arr_listToJson, ofJson?, tags, hreads, CType.nullable?_toJson true hty]
      | paren inner =>
          have hinner : inner.toJson.depth ≤ depth := by simpa [toJson] using h
          simp [toJson, ofJson?, tags, ih hinner]
      | member base field arrow =>
          have hbase : base.toJson.depth ≤ depth := by simpa [toJson] using h
          simp [toJson, ofJson?, tags, ih hbase]

theorem nullable?_toJson {depth : Nat} {value : Option Expr}
    (h : (ofOption toJson value).depth ≤ depth) :
    nullable? (ofJson? depth) (ofOption toJson value) = some value := by
  refine nullable?_ofOption (ofJson?_null depth) fun e he => ?_
  obtain rfl : value = some e := he
  exact ofJson?_toJson h

end Expr

/-! ### Statements and nodes -/

theorem Stmt.ofJson?_toJson {depth : Nat} {s : Stmt} (h : s.toJson.depth ≤ depth) :
    Stmt.ofJson? depth s.toJson = some s := by
  cases s with
  | decl name ty init =>
      obtain ⟨hty, hinit⟩ : ty.toJson.depth ≤ depth ∧
          (ofOption Expr.toJson init).depth ≤ depth := by
        simpa using depth_le_of_obj h
      simp [toJson, ofJson?, tags, CType.ofJson?_toJson true hty, Expr.nullable?_toJson hinit]
  | expr e =>
      have he : e.toJson.depth ≤ depth := by simpa using depth_le_of_obj h
      simp [toJson, ofJson?, tags, Expr.ofJson?_toJson he]
  | label name => simp [toJson, ofJson?, tags]

namespace Body

/-- Names of the members that say what a node does. -/
def memberNames : List String := ["kind", "stmts", "cond", "value", "discriminant"]

section Around

variable {pre post : Fields} (hothers : ∀ m ∈ pre ++ post, m.1 ∉ memberNames)
include hothers

theorem tagged?_members {tag : String} {members : Fields} (htag : tag ∈ tags)
    (hmembers : ∀ m ∈ members, m.1 ≠ "kind") :
    tagged? true tags (obj (pre ++ ("kind", str tag) :: members ++ post)) =
      some (tag, obj (pre ++ members ++ post)) := by
  rw [List.forall_mem_append] at hothers
  have hkind : ∀ m : String × Json, m.1 ∉ memberNames → m.1 ≠ "kind" := by
    intro m hm heq
    exact hm (by rw [heq]; decide)
  refine tagged?_around true htag ?_
  rw [List.forall_mem_append, List.forall_mem_append]
  exact ⟨fun m hm => hkind m (hothers.1 m hm), hmembers, fun m hm => hkind m (hothers.2 m hm)⟩

theorem record?_member {name : String} (v : Json) (hname : name ∈ memberNames) :
    record? [name] (obj (pre ++ [(name, v)] ++ post)) = some [(name, v)] := by
  refine record?_inner (fun m hm hmem => ?_) (by simp) (by simp)
  rw [List.mem_singleton] at hmem
  exact hothers m hm (hmem ▸ hname)

/-- What a node does is read from the members that say it, whatever others stand around them. -/
theorem ofJson?_members {depth : Nat} {b : Body} (h : ∀ m ∈ b.members, m.2.depth ≤ depth) :
    ofJson? depth (obj (pre ++ b.members ++ post)) = some b := by
  cases b with
  | start =>
      rw [members, ofJson?, tagged?_members hothers (by decide) (by simp)]
      rfl
  | finish =>
      rw [members, ofJson?, tagged?_members hothers (by decide) (by simp)]
      rfl
  | instructions stmts =>
      have hstmts : (ofList Stmt.toJson stmts).depth ≤ depth := by simpa [members] using h
      have hread : list? (Stmt.ofJson? depth) (ofList Stmt.toJson stmts) = some stmts :=
        list?_ofList_of_depth (fun _ => Stmt.ofJson?_toJson) hstmts
      rw [members, ofJson?, tagged?_members hothers (by decide) (by simp)]
      simp only [Option.bind_eq_bind, Option.bind_some,
        record?_member hothers _ (by decide : "stmts" ∈ memberNames), Fields.need?_cons_self, hread]
  | branch cond =>
      have hcond : cond.toJson.depth ≤ depth := by simpa [members] using h
      rw [members, ofJson?, tagged?_members hothers (by decide) (by simp)]
      simp only [Option.bind_eq_bind, Option.bind_some,
        record?_member hothers _ (by decide : "cond" ∈ memberNames), Fields.need?_cons_self,
        Expr.ofJson?_toJson hcond]
  | loop cond =>
      have hcond : cond.toJson.depth ≤ depth := by simpa [members] using h
      rw [members, ofJson?, tagged?_members hothers (by decide) (by simp)]
      simp only [Option.bind_eq_bind, Option.bind_some,
        record?_member hothers _ (by decide : "cond" ∈ memberNames), Fields.need?_cons_self,
        Expr.ofJson?_toJson hcond]
  | ret value =>
      have hvalue : (ofOption Expr.toJson value).depth ≤ depth := by simpa [members] using h
      rw [members, ofJson?, tagged?_members hothers (by decide) (by simp)]
      simp only [Option.bind_eq_bind, Option.bind_some,
        record?_member hothers _ (by decide : "value" ∈ memberNames), Fields.opt?_cons_self,
        Expr.nullable?_toJson hvalue]
  | switch discriminant =>
      have hdiscriminant : discriminant.toJson.depth ≤ depth := by simpa [members] using h
      rw [members, ofJson?, tagged?_members hothers (by decide) (by simp)]
      simp only [Option.bind_eq_bind, Option.bind_some,
        record?_member hothers _ (by decide : "discriminant" ∈ memberNames), Fields.need?_cons_self,
        Expr.ofJson?_toJson hdiscriminant]
  | jump =>
      rw [members, ofJson?, tagged?_members hothers (by decide) (by simp)]
      rfl

end Around

theorem names_members (b : Body) : ∀ m ∈ b.members, m.1 ∈ memberNames := by
  cases b <;> simp [members, memberNames]

end Body

namespace Node

/-- The members before those that say what the node does. -/
def membersBefore (n : Node) : Fields := [("id", .int n.id.toNat)]

/-- The members after those that say what the node does. -/
def membersAfter (n : Node) : Fields :=
  [("succ", ofList (fun i => .int i.toNat) n.succ), ("live_in", strings n.liveIn),
    ("live_out", strings n.liveOut), ("span", ofOption Span.toJson n.span)]

theorem toJson_eq (n : Node) :
    n.toJson = obj (n.membersBefore ++ n.body.members ++ n.membersAfter) := rfl

theorem record?_toJson (n : Node) :
    n.toJson.record? ["id", "succ", "live_in", "live_out", "span"] =
      some (n.membersBefore ++ n.membersAfter) := by
  have hbody : ∀ m ∈ n.body.members, m.1 ∉ ["id", "succ", "live_in", "live_out", "span"] := by
    intro m hm
    have hname := n.body.names_members m hm
    simp only [Body.memberNames, List.mem_cons, List.not_mem_nil, or_false] at hname
    rcases hname with h | h | h | h | h <;> simp [h]
  rw [toJson_eq]
  apply record?_outer
  · simp [membersBefore, membersAfter]
  · exact hbody
  · simp [membersBefore, membersAfter]

theorem ofJson?_toJson {depth : Nat} {n : Node} (h : n.toJson.depth ≤ depth) :
    ofJson? depth n.toJson = some n := by
  have hbody : Body.ofJson? depth n.toJson = some n.body := by
    rw [toJson_eq]
    apply Body.ofJson?_members
    · simp [membersBefore, membersAfter, Body.memberNames]
    · intro m hm
      exact depth_le_of_obj h m (by simp [hm])
  have hsucc : list? uint32? (ofList (fun i => .int i.toNat) n.succ) = some n.succ :=
    list?_ofList fun i _ => uint32?_toNat i
  have hstrings : ∀ l, list? string? (strings l) = some l :=
    fun l => list?_ofList fun x _ => string?_str x
  have hspan : nullable? Span.ofJson? (ofOption Span.toJson n.span) = some n.span :=
    nullable?_ofOption rfl fun s _ => s.ofJson?_toJson
  rw [toJson_eq, ofJson?, ← toJson_eq, record?_toJson]
  simp [membersBefore, membersAfter, hbody, hsucc, hstrings, hspan]

end Node

theorem Param.ofJson?_toJson {depth : Nat} {p : Param} (h : p.toJson.depth ≤ depth) :
    Param.ofJson? depth p.toJson = some p := by
  have hty : p.ty.toJson.depth ≤ depth := by simpa using depth_le_of_obj h
  simp [toJson, ofJson?, CType.ofJson?_toJson false hty]

theorem ofJson?_toJson (f : Fixture) : ofJson? f.toJson = some f := by
  obtain ⟨hparams, hreturn, hnodes⟩ : (ofList Param.toJson f.params).depth ≤ f.toJson.depth ∧
      (ofOption CType.toJson f.returnTy).depth ≤ f.toJson.depth ∧
      (ofList Node.toJson f.nodes).depth ≤ f.toJson.depth := by
    simpa using depth_le_of_obj (Nat.le_refl f.toJson.depth)
  have hparamsRead := list?_ofList_of_depth (fun _ => Param.ofJson?_toJson) hparams
  have hreturnRead := CType.nullable?_toJson false hreturn
  have hnodesRead := list?_ofList_of_depth (fun _ => Node.ofJson?_toJson) hnodes
  rw [ofJson?]
  generalize f.toJson.depth = depth at hparamsRead hreturnRead hnodesRead
  simp [toJson, hparamsRead, hreturnRead, hnodesRead]

/-! ### Normal form -/

/-- A JSON value as it is written again after reading: every field is there, and no others are. -/
def normalize? (j : Json) : Option Json := (ofJson? j).map toJson

/-- Reads and binds a JSON value, with all its spans in `file`. -/
def bindJson (j : Json) (file : FileId) : Except Error Function :=
  match ofJson? j with
  | none => .error .json
  | some f => (f.toFunction file).mapError .fixture

/-- Reads, binds and checks a JSON value. -/
def checkJson (j : Json) (file : FileId) (config : Config) : Except Error Report :=
  match ofJson? j with
  | none => .error .json
  | some f => f.check file config

theorem checkText_eq_checkJson {text : String} {j : Json}
    (h : Json.parse? nestingLimit shape text = some j) (config : Config) :
    checkText text config = checkJson j 0 config := by
  rw [checkText, parse?, h, checkJson]
  rfl

/-- What is written of a fixture is read as that fixture. Every JSON value that can be read has a
normal form, which is its own normal form and is bound and checked as the value is; and to check a
text is to check its value. -/
theorem json_roundTrip :
    (∀ f : Fixture, ofJson? f.toJson = some f) ∧
    (∀ j f, ofJson? j = some f → ∃ k, normalize? j = some k ∧ normalize? k = some k ∧
      (∀ file, bindJson k file = bindJson j file) ∧
      ∀ file config, checkJson k file config = checkJson j file config) ∧
    ∀ text j config, Json.parse? nestingLimit shape text = some j →
      checkText text config = checkJson j 0 config := by
  refine ⟨ofJson?_toJson, fun j f hj => ⟨f.toJson, ?_, ?_, ?_, ?_⟩, ?_⟩
  · rw [normalize?, hj, Option.map_some]
  · rw [normalize?, ofJson?_toJson, Option.map_some]
  · intro file
    rw [bindJson, bindJson, ofJson?_toJson, hj]
  · intro file config
    rw [checkJson, checkJson, ofJson?_toJson, hj]
  · intro text j config hparse
    exact checkText_eq_checkJson hparse config

/-- Fields are left out or unknown, members of a node are in disorder, and a statement and a type
are arrays that start with the positions of their tags. -/
def terse : Json :=
  .obj [("name", .str "f"), ("comment", .null),
    ("nodes", .arr [
      .obj [("kind", .str "start"), ("id", .int 0), ("succ", .arr [.int 1])],
      .obj [("id", .int 1), ("succ", .arr [.int 2]), ("kind", .str "inst_list"),
        ("stmts", .arr [.arr [.int 0, .str "p",
          .arr [.int 1, .arr [.str "builtin", .str "int"]]]])],
      .obj [("id", .int 2), ("kind", .str "end")]])]

def ofTerse : Fixture :=
  ⟨"f", [], none, 0,
    [⟨0, .start, [1], [], [], none⟩,
      ⟨1, .instructions [.decl "p" (.pointer (.builtin .int)) none], [2], [], [], none⟩,
      ⟨2, .finish, [], [], [], none⟩]⟩

theorem ofJson?_terse : ofJson? terse = some ofTerse := rfl

theorem json_roundTrip_terse :
    ofJson? terse = some ofTerse ∧ normalize? terse ≠ some terse ∧
    ∃ k, normalize? terse = some k ∧ normalize? k = some k ∧
      (∀ file, bindJson k file = bindJson terse file) ∧
      ∀ file config, checkJson k file config = checkJson terse file config := by
  refine ⟨ofJson?_terse, ?_, json_roundTrip.2.1 terse ofTerse ofJson?_terse⟩
  rw [normalize?, ofJson?_terse, Option.map_some, toJson, terse]
  simp

end Fixture

end LoanScope
