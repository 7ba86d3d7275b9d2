import LoanScope.Proofs.Facts.Declarations
import LoanScope.Proofs.Facts.Loans
import LoanScope.Proofs.Function.Binding

/-! What is recorded of a function, in terms of the fixture that it comes from: each place that the
fixture lends makes a loan, in the order of reading, and nothing is overwritten that the fixture
does not overwrite. -/

namespace LoanScope

/-- One record adds to another a number of loans, and shallow writes of certain places only. -/
structure Record.Adds (r r' : Record) (loans : Nat) (writes : Place → Prop) : Prop where
  length_loans : r'.loans.length = r.loans.length + loans
  accesses : ∀ a ∈ r'.facts.accesses, a ∈ r.facts.accesses ∨ (a.isShallowWrite → writes a.place)

namespace Record.Adds

variable {r r₁ r₂ : Record} {k m : Nat} {P Q : Place → Prop}

theorem nothing (r : Record) (P : Place → Prop) : r.Adds r 0 P :=
  ⟨rfl, fun _ ha => .inl ha⟩

theorem trans (h : r.Adds r₁ k P) (h' : r₁.Adds r₂ m P) : r.Adds r₂ (k + m) P := by
  refine ⟨by rw [h'.length_loans, h.length_loans, Nat.add_assoc], ?_⟩
  intro a ha
  rcases h'.accesses a ha with hold | hnew
  · exact h.accesses a hold
  · exact .inr hnew

theorem mono (h : r.Adds r₁ k P) (hPQ : ∀ p, P p → Q p) : r.Adds r₁ k Q :=
  ⟨h.length_loans, fun a ha => (h.accesses a ha).imp id fun hwrite hshallow =>
    hPQ _ (hwrite hshallow)⟩

theorem access {place : Place} {mode : Mode} {reach : Reach}
    (h : (⟨place, mode, reach⟩ : Access).isShallowWrite → P place) :
    r.Adds (r.access place mode reach) 0 P := by
  refine ⟨rfl, ?_⟩
  intro a ha
  rcases List.mem_append.mp ha with hold | hnew
  · exact .inl hold
  · rw [List.mem_singleton.mp hnew]
    exact .inr h

theorem borrow (node : NodeId) (id : ExprId) (span : FileSpan) (lent dest : TypedPlace)
    (kind : BorrowKind) : r.Adds (r.borrow node id span lent dest kind) 1 P := by
  refine ⟨r.length_loans_borrow node id span lent dest kind, ?_⟩
  intro a ha
  rcases List.mem_append.mp ha with hold | hnew
  · exact .inl hold
  · rw [List.mem_singleton.mp hnew]
    refine .inr ?_
    simp [Access.isShallowWrite]

theorem assign (dest : TypedPlace) (source : Source) : r.Adds (r.assign dest source) 0 P :=
  ⟨rfl, fun _ ha => .inl ha⟩

theorem pass (kind : TransferKind) (dest src : TypedPlace) : r.Adds (r.pass kind dest src) 0 P := by
  rw [Record.pass]
  constructor <;> cases kind <;> split <;> simp +contextual [Record.transfer, Record.assign]

theorem reads (places : List Place) : r.Adds (r.reads places) 0 P := by
  induction places generalizing r with
  | nil => exact .nothing r P
  | cons p rest ih => exact (access (by simp [Access.isShallowWrite])).trans ih

end Record.Adds

theorem Transferred.adds {s : Scene} {dest : TypedPlace} {value : Expr} {r r' : Record}
    (h : Transferred s dest value r r') (P : Place → Prop) : r.Adds r' 0 P := by
  cases h with
  | skip _ => exact .nothing r P
  | pass _ _ _ _ => exact .pass _ _ _

namespace Fixture

/-- An operand that names a place lends nothing. -/
theorem Expr.Denotes.lends_eq {names : List String} {e : Expr} {p : Place} (h : e.Denotes names p) :
    e.lends = [] := by
  cases h <;> rfl

theorem Expr.lends_unary {op : UnaryOp} (haddr : op ≠ .addrOf) (hderef : op ≠ .deref) (e : Expr) :
    (Expr.unary op e).lends = e.lends := by
  cases op <;> simp_all [lends]

theorem Expr.IsAssignment.lends_eq {left right e : Expr} (h : left.IsAssignment right e) :
    e.lends = left.lends ++ right.lends := by
  cases h <;> rfl

theorem Expr.IsAssignment.right_mem_children {left right e : Expr} (h : left.IsAssignment right e) :
    right ∈ e.children := by
  cases h <;> simp [children]

theorem Expr.BoundTo.of_assign {names : List String} {e : Expr} {id : ExprId} {span : FileSpan}
    {left' right' : LoanScope.Expr} (h : e.BoundTo names (.binary id span .assign left' right')) :
    ∃ left right : Expr, left.IsAssignment right e ∧ left.BoundTo names left' ∧
      right.BoundTo names right' := by
  cases h with
  | assign hl hr => exact ⟨_, _, .assign, hl, hr⟩
  | binary hl hr => exact ⟨_, _, .binary, hl, hr⟩

/-- What is recorded of an expression. -/
theorem Expr.BoundTo.adds {names : List String} {s : Scene} {dest : Option TypedPlace} {e : Expr}
    {e' : LoanScope.Expr} {r r' : Record} (hbound : e.BoundTo names e')
    (h : Recorded s dest e' r r') :
    r.Adds r' e.lends.length (e.Writes names) := by
  induction h generalizing e with
  | lit =>
      cases hbound
      exact .nothing _ _
  | @assign dest id span left right r r₁ r₂ target hplace htarget hright hpass ih =>
      obtain ⟨l, ri, hform, hl, hr⟩ := hbound.of_assign
      have hdenotes := hl.place?_iff.mp hplace
      have hwrite : r.Adds (r.access target.place .write .shallow) 0 (e.Writes names) :=
        .access fun _ => .here hform hdenotes
      have hvalue := (ih hr).mono (Q := e.Writes names) fun p hp =>
        .inside hform.right_mem_children hp
      have hall := (hwrite.trans hvalue).trans (hpass.adds _)
      rwa [Nat.zero_add, Nat.add_zero, ← List.nil_append ri.lends, ← hdenotes.lends_eq,
        ← hform.lends_eq] at hall
  | @binary dest id span op left right r r₁ r₂ hop _ _ ihl ihr =>
      cases hbound with
      | assign _ _ => exact absurd rfl hop
      | @binary _ l ri _ _ _ _ hl hr =>
          have hleft : r.Adds r₁ l.lends.length ((Expr.binary op l ri).Writes names) :=
            (ihl hl).mono fun p hp => .inside (by simp [children]) hp
          have hright : r₁.Adds r₂ ri.lends.length ((Expr.binary op l ri).Writes names) :=
            (ihr hr).mono fun p hp => .inside (by simp [children]) hp
          have hlends : (Expr.binary op l ri).lends = l.lends ++ ri.lends := by
            cases op <;> rfl
          rw [hlends, List.length_append]
          exact hleft.trans hright
  | borrow _ _ _ =>
      cases hbound with
      | addrOf _ => exact .borrow _ _ _ _ _ _
      | unary _ => exact .borrow _ _ _ _ _ _
  | deref _ _ =>
      cases hbound with
      | deref _ => exact .access (by simp [Access.isShallowWrite])
      | unary _ => exact .access (by simp [Access.isShallowWrite])
  | unary haddr hderef _ ih =>
      cases hbound with
      | addrOf _ => exact absurd rfl haddr
      | deref _ => exact absurd rfl hderef
      | unary h =>
          rw [Expr.lends_unary haddr hderef]
          exact (ih h).mono fun p hp => .inside (by simp [children]) hp
  | call _ hargs =>
      obtain ⟨⟨places, rfl⟩, -⟩ := LoanScope.Expr.recordArgs_reads hargs
      cases hbound
      exact .reads places
  | callTo _ hargs =>
      obtain ⟨⟨places, rfl⟩, -⟩ := LoanScope.Expr.recordArgs_reads hargs
      cases hbound
      exact (Record.Adds.reads places).trans (.assign _ _)
  | var _ _ =>
      cases hbound
      exact .access (by simp [Access.isShallowWrite])

/-! ### Statements -/

/-- What is recorded of a statement. -/
theorem Stmt.BoundTo.adds {names : List String} {s : Scene} {stmt : Stmt} {stmt' : LoanScope.Stmt}
    {r r' : Record} (hbound : stmt.BoundTo names stmt') (h : StmtRecorded s stmt' r r') :
    r.Adds r' stmt.lends.length (stmt.Writes names) := by
  cases h with
  | decl hnone =>
      cases hbound with
      | decl _ _ => exact .nothing _ _
      | init _ hinit _ => simp [hnone] at hinit
  | @init id d init' r r₁ r₂ target hinit hplace _ hvalue hpass =>
      cases hbound with
      | decl _ hnone => simp [hnone] at hinit
      | @init x ty init _ _ _ hvar hinit' hbound =>
          rw [hinit'] at hinit
          cases hinit
          have hwrite : r.Adds (r.access target.place .write .shallow) 0
              ((Stmt.decl x ty (some init)).Writes names) := by
            refine .access fun _ => ?_
            rw [hplace, hvar]
            exact .decl
          have hall := (hwrite.trans ((hbound.adds hvalue).mono fun p hp => .init hp)).trans
            (hpass.adds _)
          simpa [lends] using hall
  | expr h =>
      cases hbound with
      | expr hbound => exact (hbound.adds h).mono fun p hp => .expr hp
  | label =>
      cases hbound
      exact .nothing _ _

/-- What is recorded of statements in a row. -/
theorem Stmt.ListBoundTo.adds {names : List String} {s : Scene} {stmts : List Stmt}
    {stmts' : List LoanScope.Stmt} {r r' : Record} (hbound : Stmt.ListBoundTo names stmts stmts')
    (h : StmtsRecorded s stmts' r r') :
    r.Adds r' (stmts.flatMap Stmt.lends).length (Stmt.ListWrites names stmts) := by
  induction hbound generalizing r with
  | nil =>
      cases h
      exact .nothing _ _
  | @cons names stmt stmt' rest rest' hfirst _ ih =>
      cases h with
      | cons hstmt hrest =>
          rw [List.flatMap_cons, List.length_append]
          refine ((hfirst.adds hstmt).mono ?_).trans ((ih hrest).mono ?_)
          · intro p hp
            exact ⟨0, stmt, rfl, by simpa using hp⟩
          · rintro p ⟨i, later, hi, hp⟩
            refine ⟨i + 1, later, hi, ?_⟩
            rwa [List.take_succ_cons, List.flatMap_cons, ← List.append_assoc]

/-- The record right before and right after one of the statements. -/
theorem Stmt.ListBoundTo.recorded_at {names : List String} {s : Scene} {stmts : List Stmt}
    {stmts' : List LoanScope.Stmt} {r r' : Record} (hbound : Stmt.ListBoundTo names stmts stmts')
    (h : StmtsRecorded s stmts' r r') {i : Nat} {stmt : Stmt} (hi : stmts[i]? = some stmt) :
    ∃ stmt' r₁ r₂, stmt.BoundTo (names ++ (stmts.take i).flatMap Stmt.declares) stmt' ∧
      StmtRecorded s stmt' r₁ r₂ ∧ r₂.Extends r' ∧
      r₁.loans.length = r.loans.length + ((stmts.take i).flatMap Stmt.lends).length := by
  induction hbound generalizing r i with
  | nil => simp at hi
  | @cons names first first' rest rest' hfirst _ ih =>
      cases h with
      | @cons _ _ _ r₁ _ hstmt hrest =>
          cases i with
          | zero =>
              cases hi
              exact ⟨first', r, r₁, by simpa using hfirst, hstmt, hrest.acts.extends, by simp⟩
          | succ i =>
              obtain ⟨stmt', r₂, r₃, hb, hrec, hext, hlen⟩ := ih hrest hi
              refine ⟨stmt', r₂, r₃, ?_, hrec, hext, ?_⟩
              · rwa [List.take_succ_cons, List.flatMap_cons, ← List.append_assoc]
              · rw [hlen, (hfirst.adds hstmt).length_loans, List.take_succ_cons,
                  List.flatMap_cons, List.length_append, Nat.add_assoc]

/-! ### Nodes -/

/-- What is recorded of a node. -/
theorem Body.BoundTo.adds {names : List String} {s : Scene} {body : Body} {step : Step}
    {r r' : Record} (hbound : body.BoundTo names step) (h : StepRecorded s step r r') :
    r.Adds r' body.lends.length (body.Writes names) := by
  have hexpr : ∀ {e : Expr} {e' : LoanScope.Expr} {r₁ : Record}, body.stmts = [] →
      body.expr? = some e → e.BoundTo names e' → Recorded s none e' r r₁ →
      r.Adds r₁ body.lends.length (body.Writes names) := by
    intro e e' r₁ hstmts he hb hrec
    have hadds := (hb.adds hrec).mono (Q := body.Writes names) fun p hp => .inr ⟨e, he, hp⟩
    simpa [Body.lends, hstmts, he] using hadds
  cases hbound with
  | start | finish | jump | leave =>
      cases h
      exact .nothing _ _
  | @instructions stmts _ hlist =>
      cases h with
      | instructions h =>
          have hadds := (hlist.adds h).mono (Q := (Body.instructions stmts).Writes names)
            fun p hp => .inl hp
          simpa [Body.lends, Body.stmts, Body.expr?] using hadds
  | branch he =>
      cases h with
      | branch h => exact hexpr rfl rfl he h
  | loop he =>
      cases h with
      | loop h => exact hexpr rfl rfl he h
  | switch he => cases h
  | ret he =>
      cases h with
      | ret h => exact hexpr rfl rfl he h
      | retRef h _ _ _ _ =>
          obtain ⟨hlen, hacc⟩ := hexpr rfl rfl he h
          exact ⟨hlen, hacc⟩

/-- The record right before and right after one of the nodes. -/
theorem Node.ListBoundTo.recorded_at {names : List String} {d : Declared} {n : NodeId}
    {nodes : List Node} {nodes' : List LoanScope.Node} {regions : Regions} {loans : List Loan}
    {facts : Facts} (hbound : Node.ListBoundTo names nodes nodes')
    (h : NodesRecorded d n nodes' regions loans facts) {m : Nat} {node : Node}
    (hm : nodes[m]? = some node) :
    ∃ step r r', node.body.BoundTo (names ++ (nodes.take m).flatMap (·.body.declares)) step ∧
      StepRecorded ⟨d, n + m⟩ step r r' ∧ r.facts = .empty ∧ facts.nodes[m]? = some r'.facts ∧
      r.loans.length = loans.length + ((nodes.take m).flatMap (·.body.lends)).length ∧
      r'.loans <+: facts.loans ∧ r'.regions.toList <+: facts.regions.toList := by
  induction hbound generalizing n regions loans facts m with
  | nil => simp at hm
  | @cons names first first' rest rest' hfirst _ _ ih =>
      cases h with
      | @cons _ _ _ _ _ r facts hstep hrest =>
          cases m with
          | zero =>
              cases hm
              obtain ⟨-, hregions, hloans, -⟩ := hrest.extends
              exact ⟨_, _, r, by simpa using hfirst, hstep, rfl, rfl, by simp, hloans, hregions⟩
          | succ m =>
              obtain ⟨step, r₁, r₂, hb, hrec, hempty, hfacts, hlen, hprefix⟩ := ih hrest hm
              refine ⟨step, r₁, r₂, ?_, ?_, hempty, hfacts, ?_, hprefix⟩
              · rwa [List.take_succ_cons, List.flatMap_cons, ← List.append_assoc]
              · rwa [Nat.succ_add_eq_add_succ] at hrec
              · rw [hlen, (hfirst.adds hstep).length_loans, List.take_succ_cons,
                  List.flatMap_cons, List.length_append, Nat.add_assoc]

/-! ### The whole function -/

section function

variable {f : Fixture} {function : Function} {facts : Facts} (hf : f.FunctionOf function)
  (hfacts : function.facts = .ok facts)

include hf hfacts

omit hfacts in
theorem FunctionOf.stmtsAt_eq {n : NodeId} {node : Node} (hn : f.sortedNodes[n]? = some node) :
    f.stmtsAt n = node.body.stmts := by
  simp [stmtsAt, hf.nodeAt?_eq, hn]

omit hfacts in
theorem FunctionOf.exists_node {n : NodeId} {i : Nat} {stmt : Stmt}
    (hstmt : (f.stmtsAt n)[i]? = some stmt) : ∃ node, f.sortedNodes[n]? = some node := by
  cases hn : f.sortedNodes[n]? with
  | none => simp [stmtsAt, hf.nodeAt?_eq, hn] at hstmt
  | some node => exact ⟨node, rfl⟩

theorem FunctionOf.recorded_node {n : NodeId} {node : Node} (hn : f.sortedNodes[n]? = some node) :
    ∃ step r r', node.body.BoundTo (f.declaredAt n) step ∧
      StepRecorded ⟨facts.declared, n⟩ step r r' ∧ r.facts = .empty ∧
      facts.nodes[n]? = some r'.facts ∧
      r.loans.length = ((f.sortedNodes.take n).flatMap (·.body.lends)).length ∧
      r'.loans <+: facts.loans ∧ r'.regions.toList <+: facts.regions.toList := by
  obtain ⟨registry, -, hrecorded⟩ := Function.facts_recorded hfacts
  obtain ⟨step, r, r', hb, hrec, hempty, hhere, hlen, hprefix⟩ := hf.nodes.recorded_at hrecorded hn
  rw [Nat.zero_add, ← hrecorded.extends.1] at hrec
  exact ⟨step, r, r', hb, hrec, hempty, hhere, by simpa using hlen, hprefix⟩

/-- Where one of the statements is recorded, and what of it is in the facts. -/
theorem FunctionOf.recorded_stmt {n : NodeId} {i : Nat} {stmt : Stmt}
    (hstmt : (f.stmtsAt n)[i]? = some stmt) :
    ∃ stmt' r₁ r₂ here, stmt.BoundTo (f.declaredBefore n i) stmt' ∧
      StmtRecorded ⟨facts.declared, n⟩ stmt' r₁ r₂ ∧ r₁.loans.length = f.nextLoan n i ∧
      facts.nodes[n]? = some here ∧ r₂.facts.assignments <+: here.assignments ∧
      r₂.loans <+: facts.loans ∧ r₂.regions.toList <+: facts.regions.toList := by
  obtain ⟨node, hnode⟩ := hf.exists_node hstmt
  obtain ⟨step, r, r', hbound, hrec, -, hhere, hlen, hloans, hregions⟩ :=
    hf.recorded_node hfacts hnode
  have hstmts := hf.stmtsAt_eq hnode
  rw [nextLoan, lentBefore, declaredBefore, List.length_append, ← hlen, hstmts]
  rw [hstmts] at hstmt
  generalize node.body = body at hbound hstmt
  cases hbound with
  | instructions hlist =>
      cases hrec with
      | instructions hrec =>
          obtain ⟨stmt', r₁, r₂, hb, hstmtRec, hext, hlen'⟩ := hlist.recorded_at hrec hstmt
          exact ⟨stmt', r₁, r₂, r'.facts, hb, hstmtRec, hlen', hhere, hext.assignments,
            hext.loans.trans hloans, hext.regions.trans hregions⟩
  | _ => simp [Body.stmts] at hstmt

/-- What the facts have as overwritten at a node, the fixture overwrites there. -/
theorem FunctionOf.writes_of_access {n : NodeId} {here : NodeFacts}
    (hhere : facts.nodes[n]? = some here) {a : Access} (ha : a ∈ here.accesses)
    (hwrite : a.isShallowWrite) : f.Writes n a.place := by
  cases hnode : f.sortedNodes[n]? with
  | none =>
      obtain ⟨registry, -, hrecorded⟩ := Function.facts_recorded hfacts
      have hlen : facts.nodes.length ≤ n := by
        rw [hrecorded.extends.2.2.2, hf.nodes.length_eq]
        exact List.getElem?_eq_none_iff.mp hnode
      simp [List.getElem?_eq_none hlen] at hhere
  | some node =>
      obtain ⟨step, r, r', hbound, hrec, hempty, hsame, -, -, -⟩ :=
        hf.recorded_node hfacts hnode
      rw [hhere] at hsame
      cases hsame
      rcases (hbound.adds hrec).accesses a ha with hold | hnew
      · simp [hempty, NodeFacts.empty] at hold
      · exact ⟨node, (hf.nodeAt?_eq n).trans hnode, hnew hwrite⟩

/-- The declared types are those of the declared names, and their regions exist. -/
theorem FunctionOf.declared_entries :
    facts.declared.entries.map Prod.fst = variablesFrom 0 f.declaredNames ∧
      ∀ e ∈ facts.declared.entries, e.2.Placed facts.regions.size := by
  obtain ⟨registry, hregistry, hrecorded⟩ := Function.facts_recorded hfacts
  have hknows := Function.registry_knows hregistry
  obtain ⟨hdeclared, hregions, -, -⟩ := hrecorded.extends
  rw [hdeclared]
  refine ⟨?_, fun e he => (hknows.placed e he).mono hregions.length_le⟩
  rw [hknows.map_variable, List.map_append, hf.params, hf.nodes.map_variable, declaredNames,
    variablesFrom_append, Nat.zero_add]

omit hfacts in
/-- What is declared before a statement and by it comes first among all declarations. -/
theorem FunctionOf.isPrefix_declaredNames {n : NodeId} {i : Nat} {stmt : Stmt}
    (hstmt : (f.stmtsAt n)[i]? = some stmt) :
    f.declaredBefore n i ++ stmt.declares <+: f.declaredNames := by
  obtain ⟨node, hnode⟩ := hf.exists_node hstmt
  have hhere : ((f.stmtsAt n).take i).flatMap Stmt.declares ++ stmt.declares <+:
      node.body.declares := by
    rw [hf.stmtsAt_eq hnode] at hstmt ⊢
    exact isPrefix_flatMap_take hstmt Stmt.declares
  have hall := isPrefix_flatMap_take hnode (·.body.declares)
  rw [declaredBefore, declaredAt, declaredNames, List.append_assoc, List.append_assoc]
  exact (List.prefix_append_right_inj _).mpr
    (((List.prefix_append_right_inj _).mpr hhere).trans hall)

end function

end Fixture

end LoanScope
