import LoanScope.Proofs.Place
import Mathlib.Logic.Relation

/-! What recording a function does to the record: a few kinds of actions, one after the other. What
every action keeps, every record has. -/

namespace LoanScope

namespace Record

/-- A place is lent to a destination: the loan gets the next number and a region of its own. -/
def borrow (r : Record) (node : NodeId) (id : ExprId) (span : FileSpan) (lent dest : TypedPlace)
    (kind : BorrowKind) : Record :=
  let loan : Loan :=
    { id := r.loans.length, region := r.regions.size, kind, declaredTy := dest.ty
      place := lent.place, placeTy := lent.ty, origin := node, expr := id, span }
  let fresh := { r with regions := r.regions.fresh .existential none (some (.borrow id)) }
  ((fresh.lend loan).assign dest (.borrow loan.id)).access lent.place
    (if kind = .mutable then .write else .read) .deep

/-- The value of one place passes to another. -/
def pass (r : Record) (kind : TransferKind) (dest src : TypedPlace) : Record :=
  (if dest.ty.isRef then r.assign dest (.place src) else r).transfer kind ⟨dest, src⟩

/-- Places are read deeply, one after the other. -/
def reads (r : Record) (places : List Place) : Record :=
  places.foldl (fun r p => r.access p .read .deep) r

end Record

/-- One action of recording. -/
inductive Act (s : Scene) (r : Record) : Record → Prop where
  | access (place : Place) (mode : Mode) (reach : Reach) : Act s r (r.access place mode reach)
  | borrow (id : ExprId) (span : FileSpan) {lent dest : TypedPlace} {kind : BorrowKind}
      (hlent : lent.Typed s.declared) (hdest : dest.Typed s.declared)
      (hkind : dest.ty.kind? = some kind) : Act s r (r.borrow s.node id span lent dest kind)
  | pass {kind : TransferKind} {dest src : TypedPlace} (hdest : dest.Typed s.declared)
      (hsrc : src.Typed s.declared) (hkind : TransferKind.classify dest.ty src.ty = .ok kind) :
      Act s r (r.pass kind dest src)
  | call {dest : TypedPlace} {args : List TypedPlace} (hdest : dest.Typed s.declared)
      (href : dest.ty.isRef) (hargs : ∀ a ∈ args, a.Typed s.declared ∧ a.ty.isRef) :
      Act s r (r.assign dest (.call args))
  | ret {p : TypedPlace} (hp : p.Typed s.declared) (href : p.ty.isRef) : Act s r (r.addReturn p)

/-- Actions in a row. -/
abbrev Acts (s : Scene) : Record → Record → Prop := Relation.ReflTransGen (Act s)

/-- What every action keeps, a row of actions keeps. -/
theorem Acts.invariant {s : Scene} {P : Record → Prop} {r r' : Record} (h : Acts s r r')
    (hkeep : ∀ r r', Act s r r' → P r → P r') (hr : P r) : P r' := by
  induction h with
  | refl => exact hr
  | tail _ hact ih => exact hkeep _ _ hact ih

theorem Record.acts_reads (s : Scene) (r : Record) (places : List Place) :
    Acts s r (r.reads places) := by
  induction places generalizing r with
  | nil => exact .refl
  | cons p rest ih => exact .head (.access p .read .deep) (ih _)

/-! ### Expressions -/

theorem Expr.place_eq_ok {span : FileSpan} {e : Expr} {p : Place} :
    e.place span = .ok p ↔ e.place? = .ok (some p) := by
  rw [Expr.place, bind_eq_ok]
  constructor
  · rintro ⟨q, hq, h⟩
    cases q with
    | none => cases h
    | some q =>
        cases h
        exact hq
  · intro h
    exact ⟨some p, h, rfl⟩

theorem Expr.recordBorrow_eq_ok {s : Scene} {id : ExprId} {span : FileSpan} {operand : Expr}
    {dest : Option TypedPlace} {r r' : Record} :
    operand.recordBorrow s id span dest r = .ok r' ↔
      ∃ lent target kind, dest = some target ∧ operand.place? = .ok (some lent.place) ∧
        lent.Typed s.declared ∧ target.ty.kind? = some kind ∧
        r' = r.borrow s.node id span lent target kind := by
  rw [Expr.recordBorrow, bind_eq_ok]
  constructor
  · rintro ⟨place, hplace, hrest⟩
    obtain ⟨lent, htyped, h⟩ := bind_eq_ok.mp hrest
    obtain ⟨rfl, hlent⟩ := Place.typed_eq_ok.mp htyped
    cases dest with
    | none => cases h
    | some target =>
        simp only at h
        cases hkind : target.ty.kind? with
        | none => simp [hkind] at h
        | some kind =>
            simp only [hkind, Except.ok.injEq] at h
            exact ⟨lent, target, kind, rfl, Expr.place_eq_ok.mp hplace, hlent, hkind, h.symm⟩
  · rintro ⟨lent, target, kind, rfl, hplace, hlent, hkind, rfl⟩
    refine ⟨lent.place, Expr.place_eq_ok.mpr hplace, ?_⟩
    refine bind_eq_ok.mpr ⟨lent, Place.typed_eq_ok.mpr ⟨rfl, hlent⟩, ?_⟩
    simp only [hkind]
    rfl

theorem Expr.place?_ne_none {e : Expr} (h : e.isVar || e.isDeref) : e.place? ≠ .ok none := by
  intro hnone
  cases e with
  | unary id span op operand =>
      cases op with
      | deref =>
          rw [Expr.place?, bind_eq_ok] at hnone
          obtain ⟨p, _, hp⟩ := hnone
          cases p <;> simp at hp
      | _ => simp [isVar, isDeref] at h
  | var id span v => simp [Expr.place?] at hnone
  | _ => simp [isVar, isDeref] at h

/-- What becomes of an assigned value: a variable or a dereference passes to the destination, and
nothing else does. -/
inductive Transferred (s : Scene) (dest : TypedPlace) (value : Expr) (r : Record) :
    Record → Prop where
  | skip (h : (value.isVar || value.isDeref) = false) : Transferred s dest value r r
  | pass {src : TypedPlace} {kind : TransferKind} (h : (value.isVar || value.isDeref) = true)
      (hplace : value.place? = .ok (some src.place)) (hsrc : src.Typed s.declared)
      (hkind : TransferKind.classify dest.ty src.ty = .ok kind) :
      Transferred s dest value r (r.pass kind dest src)

theorem Expr.recordTransfer_transferred {s : Scene} {dest : TypedPlace} {value : Expr}
    {r r' : Record} (h : value.recordTransfer s dest r = .ok r') :
    Transferred s dest value r r' := by
  rw [Expr.recordTransfer] at h
  by_cases hvalue : (value.isVar || value.isDeref) = true
  · rw [if_pos hvalue] at h
    obtain ⟨place, hplace, hrest⟩ := bind_eq_ok.mp h
    cases place with
    | none => exact absurd hplace (Expr.place?_ne_none hvalue)
    | some place =>
        obtain ⟨src, htyped, hend⟩ := bind_eq_ok.mp hrest
        obtain ⟨rfl, hsrc⟩ := Place.typed_eq_ok.mp htyped
        cases hkind : TransferKind.classify dest.ty src.ty with
        | error e => simp [hkind] at hend
        | ok kind =>
            simp only [hkind, Except.ok.injEq] at hend
            rw [← hend]
            exact .pass hvalue hplace hsrc hkind
  · rw [if_neg hvalue] at h
    cases h
    exact .skip (by simpa using hvalue)

/-- The first argument names no place, or it is read and, if someone asks for it, found to be a
reference or not. -/
theorem Expr.recordArgs_cons {s : Scene} {span : FileSpan} {asked : Bool} {r r' : Record} {e : Expr}
    {rest : List Expr} {found : List TypedPlace}
    (h : Expr.recordArgs s span asked r (e :: rest) = .ok (r', found)) :
    e.place? = .ok none ∧ Expr.recordArgs s span asked r rest = .ok (r', found) ∨
      ∃ place here later, e.place? = .ok (some place) ∧
        Expr.recordArgs s span asked (r.access place .read .deep) rest = .ok (r', later) ∧
        found = here ++ later ∧
        (asked = false ∧ here = [] ∨
          ∃ p : TypedPlace, p.place = place ∧ p.Typed s.declared ∧
            here = if p.ty.isRef then [p] else []) := by
  rw [Expr.recordArgs, bind_eq_ok] at h
  obtain ⟨place, hplace, h⟩ := h
  cases place with
  | none => exact .inl ⟨hplace, h⟩
  | some place =>
      cases asked with
      | false =>
          obtain ⟨here, hhere, hrest⟩ := bind_eq_ok.mp h
          cases hhere
          obtain ⟨⟨r₁, later⟩, hlater, hend⟩ := bind_eq_ok.mp hrest
          cases hend
          exact .inr ⟨place, [], later, hplace, hlater, rfl, .inl ⟨rfl, rfl⟩⟩
      | true =>
          obtain ⟨p, hp, hrest⟩ := bind_eq_ok.mp h
          obtain ⟨here, hhere, hrest⟩ := bind_eq_ok.mp hrest
          cases hhere
          obtain ⟨⟨r₁, later⟩, hlater, hend⟩ := bind_eq_ok.mp hrest
          cases hend
          obtain ⟨hsame, htyped⟩ := Place.typed_eq_ok.mp hp
          exact .inr ⟨place, _, later, hplace, hlater, rfl, .inr ⟨p, hsame, htyped, rfl⟩⟩

/-- Arguments are read, and those that are found are references. -/
theorem Expr.recordArgs_reads {s : Scene} {span : FileSpan} {asked : Bool} {r r' : Record}
    {args : List Expr} {found : List TypedPlace}
    (h : Expr.recordArgs s span asked r args = .ok (r', found)) :
    (∃ places, r' = r.reads places) ∧ ∀ a ∈ found, a.Typed s.declared ∧ a.ty.isRef := by
  induction args generalizing r r' found with
  | nil =>
      cases h
      exact ⟨⟨[], rfl⟩, by simp⟩
  | cons e rest ih =>
      rcases Expr.recordArgs_cons h with
        ⟨-, hrest⟩ | ⟨place, here, later, -, hrest, rfl, hhere⟩
      · exact ih hrest
      · obtain ⟨⟨places, hplaces⟩, hfound⟩ := ih hrest
        refine ⟨⟨place :: places, hplaces⟩, ?_⟩
        intro a ha
        rcases List.mem_append.mp ha with ha | ha
        · rcases hhere with ⟨-, rfl⟩ | ⟨p, -, htyped, rfl⟩
          · cases ha
          · split at ha
            · rename_i href
              rw [List.mem_singleton.mp ha]
              exact ⟨htyped, href⟩
            · cases ha
        · exact hfound a ha

/-- How an expression is recorded whose value goes to `dest`, if it goes anywhere. -/
inductive Recorded (s : Scene) : Option TypedPlace → Expr → Record → Record → Prop where
  | lit {dest id span value r} : Recorded s dest (.lit id span value) r r
  | assign {dest id span left right r r₁ r₂} {target : TypedPlace}
      (hplace : left.place? = .ok (some target.place)) (htarget : target.Typed s.declared)
      (hright : Recorded s (some target) right (r.access target.place .write .shallow) r₁)
      (hpass : Transferred s target right r₁ r₂) :
      Recorded s dest (.binary id span .assign left right) r r₂
  | binary {dest id span op left right r r₁ r₂} (hop : op ≠ .assign)
      (hleft : Recorded s dest left r r₁) (hright : Recorded s dest right r₁ r₂) :
      Recorded s dest (.binary id span op left right) r r₂
  | borrow {id span operand r} {lent target : TypedPlace} {kind : BorrowKind}
      (hplace : operand.place? = .ok (some lent.place)) (hlent : lent.Typed s.declared)
      (hkind : target.ty.kind? = some kind) :
      Recorded s (some target) (.unary id span .addrOf operand) r
        (r.borrow s.node id span lent target kind)
  | deref {dest id span operand r} {p : TypedPlace}
      (hplace : (Expr.unary id span .deref operand).place? = .ok (some p.place))
      (hp : p.Typed s.declared) :
      Recorded s dest (.unary id span .deref operand) r (r.access p.place .read .deep)
  | unary {dest id span op operand r r₁} (haddr : op ≠ .addrOf) (hderef : op ≠ .deref)
      (h : Recorded s dest operand r r₁) : Recorded s dest (.unary id span op operand) r r₁
  | call {dest id span callee args ty r r₁ found} (hnone : dest.filter (·.ty.isRef) = none)
      (hargs : Expr.recordArgs s span false r args = .ok (r₁, found)) :
      Recorded s dest (.call id span callee args ty) r r₁
  | callTo {dest id span callee args ty r r₁ found} {target : TypedPlace}
      (htarget : dest.filter (·.ty.isRef) = some target)
      (hargs : Expr.recordArgs s span true r args = .ok (r₁, found)) :
      Recorded s dest (.call id span callee args ty) r (r₁.assign target (.call found))
  | var {dest id span v r} {p : TypedPlace} (hplace : p.place = .var v) (hp : p.Typed s.declared) :
      Recorded s dest (.var id span v) r
        (r.access p.place (if p.ty.isCopyable then .read else .write) .deep)

theorem Expr.record_recorded {s : Scene} {dest : Option TypedPlace} {e : Expr} {r r' : Record}
    (h : e.record s dest r = .ok r') : Recorded s dest e r r' := by
  induction dest, r, e using Expr.record.induct generalizing r' with
  | case1 dest r id span value =>
      cases h
      exact .lit
  | case2 dest r id span left right ih =>
      rw [Expr.record] at h
      obtain ⟨place, hplace, h⟩ := bind_eq_ok.mp h
      obtain ⟨target, htyped, h⟩ := bind_eq_ok.mp h
      obtain ⟨r₁, hright, hpass⟩ := bind_eq_ok.mp h
      obtain ⟨rfl, htarget⟩ := Place.typed_eq_ok.mp htyped
      exact .assign (Expr.place_eq_ok.mp hplace) htarget (ih _ _ hright)
        (Expr.recordTransfer_transferred hpass)
  | case3 dest r id span op left right hop ihl ihr =>
      rw [Expr.record] at h
      · obtain ⟨r₁, hleft, hright⟩ := bind_eq_ok.mp h
        exact .binary hop (ihl hleft) (ihr _ hright)
      · exact hop
  | case4 dest r id span operand =>
      rw [Expr.record] at h
      obtain ⟨lent, target, kind, rfl, hplace, hlent, hkind, rfl⟩ := Expr.recordBorrow_eq_ok.mp h
      exact .borrow hplace hlent hkind
  | case5 dest r id span operand =>
      rw [Expr.record] at h
      obtain ⟨place, hplace, h⟩ := bind_eq_ok.mp h
      cases place with
      | none => exact absurd hplace (Expr.place?_ne_none (by simp [isDeref]))
      | some place =>
          obtain ⟨p, htyped, hend⟩ := bind_eq_ok.mp h
          obtain ⟨rfl, hp⟩ := Place.typed_eq_ok.mp htyped
          cases hend
          exact .deref hplace hp
  | case6 dest r id span op operand haddr hderef ih =>
      rw [Expr.record] at h
      · exact .unary haddr hderef (ih h)
      · exact haddr
      · exact hderef
  | case7 dest r id span callee args ty =>
      rw [Expr.record] at h
      obtain ⟨⟨r₁, found⟩, hargs, h⟩ := bind_eq_ok.mp h
      cases hdest : dest.filter (·.ty.isRef) with
      | none =>
          simp only [hdest] at h hargs
          cases h
          exact .call hdest hargs
      | some target =>
          simp only [hdest] at h hargs
          cases h
          exact .callTo hdest hargs
  | case8 dest r id span v =>
      rw [Expr.record] at h
      obtain ⟨p, htyped, h⟩ := bind_eq_ok.mp h
      obtain ⟨hplace, hp⟩ := Place.typed_eq_ok.mp htyped
      cases h
      exact .var hplace hp
  | case9 => cases h
  | case10 => cases h

theorem Transferred.acts {s : Scene} {dest : TypedPlace} {value : Expr} {r r' : Record}
    (h : Transferred s dest value r r') (hdest : dest.Typed s.declared) : Acts s r r' := by
  cases h with
  | skip _ => exact .refl
  | pass _ _ hsrc hkind => exact .single (.pass hdest hsrc hkind)

theorem Recorded.acts {s : Scene} {dest : Option TypedPlace} {e : Expr} {r r' : Record}
    (h : Recorded s dest e r r') (hdest : ∀ d ∈ dest, d.Typed s.declared) : Acts s r r' := by
  induction h with
  | lit => exact .refl
  | assign _ htarget _ hpass ih =>
      refine .head (.access _ .write .shallow) ((ih ?_).trans (hpass.acts htarget))
      rintro d ⟨⟩
      exact htarget
  | binary _ _ _ ihl ihr => exact (ihl hdest).trans (ihr hdest)
  | borrow _ hlent hkind => exact .single (.borrow _ _ hlent (hdest _ rfl) hkind)
  | deref _ _ => exact .single (.access _ .read .deep)
  | unary _ _ _ ih => exact ih hdest
  | call _ hargs =>
      obtain ⟨⟨places, rfl⟩, -⟩ := Expr.recordArgs_reads hargs
      exact Record.acts_reads s _ places
  | callTo htarget hargs =>
      obtain ⟨⟨places, rfl⟩, hfound⟩ := Expr.recordArgs_reads hargs
      obtain ⟨hmem, href⟩ := Option.filter_eq_some_iff.mp htarget
      exact (Record.acts_reads s _ places).tail (.call (hdest _ hmem) (by simpa using href) hfound)
  | var _ _ => exact .single (.access _ _ .deep)

/-! ### Statements and nodes -/

/-- How a statement is recorded. An initialiser is recorded like an assignment to the variable. -/
inductive StmtRecorded (s : Scene) : Stmt → Record → Record → Prop where
  | decl {id d r} (hinit : d.init = none) : StmtRecorded s (.decl id d) r r
  | init {id d init r r₁ r₂} {target : TypedPlace} (hinit : d.init = some init)
      (hplace : target.place = .var d.variable) (htarget : target.Typed s.declared)
      (hvalue : Recorded s (some target) init (r.access target.place .write .shallow) r₁)
      (hpass : Transferred s target init r₁ r₂) : StmtRecorded s (.decl id d) r r₂
  | expr {id e r r₁} (h : Recorded s none e r r₁) : StmtRecorded s (.expr id e) r r₁
  | label {id name span r} : StmtRecorded s (.label id name span) r r

theorem Stmt.record_recorded {s : Scene} {stmt : Stmt} {r r' : Record}
    (h : stmt.record s r = .ok r') : StmtRecorded s stmt r r' := by
  cases stmt with
  | decl id d =>
      rw [Stmt.record, Decl.record] at h
      cases hinit : d.init with
      | none =>
          simp only [hinit] at h
          cases h
          exact .decl hinit
      | some init =>
          simp only [hinit] at h
          obtain ⟨target, htyped, hrest⟩ := bind_eq_ok.mp h
          obtain ⟨r₁, hvalue, hpass⟩ := bind_eq_ok.mp hrest
          obtain ⟨hplace, htarget⟩ := Place.typed_eq_ok.mp htyped
          exact .init hinit hplace htarget (Expr.record_recorded hvalue)
            (Expr.recordTransfer_transferred hpass)
  | expr id e => exact .expr (Expr.record_recorded h)
  | label id name span =>
      cases h
      exact .label

theorem StmtRecorded.acts {s : Scene} {stmt : Stmt} {r r' : Record}
    (h : StmtRecorded s stmt r r') : Acts s r r' := by
  cases h with
  | decl _ => exact .refl
  | init _ _ htarget hvalue hpass =>
      refine .head (.access _ .write .shallow) ((hvalue.acts ?_).trans (hpass.acts htarget))
      rintro d ⟨⟩
      exact htarget
  | expr h => exact h.acts (by simp)
  | label => exact .refl

/-- Statements are recorded one after the other. -/
inductive StmtsRecorded (s : Scene) : List Stmt → Record → Record → Prop where
  | nil {r} : StmtsRecorded s [] r r
  | cons {stmt rest r r₁ r₂} (hfirst : StmtRecorded s stmt r r₁)
      (hrest : StmtsRecorded s rest r₁ r₂) :
      StmtsRecorded s (stmt :: rest) r r₂

theorem Stmt.foldlM_recorded {s : Scene} {stmts : List Stmt} {r r' : Record}
    (h : stmts.foldlM (Stmt.record s) r = .ok r') : StmtsRecorded s stmts r r' := by
  induction stmts generalizing r with
  | nil =>
      cases h
      exact .nil
  | cons stmt rest ih =>
      obtain ⟨r₁, hfirst, hrest⟩ := bind_eq_ok.mp h
      exact .cons (Stmt.record_recorded hfirst) (ih hrest)

theorem StmtsRecorded.acts {s : Scene} {stmts : List Stmt} {r r' : Record}
    (h : StmtsRecorded s stmts r r') : Acts s r r' := by
  induction h with
  | nil => exact .refl
  | cons hfirst _ ih => exact hfirst.acts.trans ih

/-- How a node is recorded: its statements, or its one expression. -/
inductive StepRecorded (s : Scene) : Step → Record → Record → Prop where
  | start {r} : StepRecorded s .start r r
  | finish {r} : StepRecorded s .finish r r
  | jump {r} : StepRecorded s .jump r r
  | instructions {stmts r r₁} (h : StmtsRecorded s stmts r r₁) :
      StepRecorded s (.instructions stmts) r r₁
  | branch {cond r r₁} (h : Recorded s none cond r r₁) : StepRecorded s (.branch cond) r r₁
  | loop {cond r r₁} (h : Recorded s none cond r r₁) : StepRecorded s (.loop cond) r r₁
  | leave {span r} : StepRecorded s (.ret none span) r r
  | ret {value span r r₁} (h : Recorded s none value r r₁) :
      StepRecorded s (.ret (some value) span) r r₁
  | retRef {value span r r₁} {p : TypedPlace} (h : Recorded s none value r r₁)
      (hvalue : (value.isVar || value.isDeref) = true) (hplace : value.place? = .ok (some p.place))
      (hp : p.Typed s.declared) (href : p.ty.isRef) :
      StepRecorded s (.ret (some value) span) r (r₁.addReturn p)

theorem Expr.recordReturn_recorded {s : Scene} {value : Expr} {span : FileSpan} {r r' : Record}
    (h : value.recordReturn s r = .ok r') : StepRecorded s (.ret (some value) span) r r' := by
  rw [Expr.recordReturn] at h
  obtain ⟨r₁, hvalue, hrest⟩ := bind_eq_ok.mp h
  have hrecorded := Expr.record_recorded hvalue
  by_cases hplain : (value.isVar || value.isDeref) = true
  · rw [if_pos hplain] at hrest
    obtain ⟨place, hplace, hend⟩ := bind_eq_ok.mp hrest
    cases place with
    | none => exact absurd hplace (Expr.place?_ne_none hplain)
    | some place =>
        obtain ⟨p, htyped, hlast⟩ := bind_eq_ok.mp hend
        obtain ⟨rfl, hp⟩ := Place.typed_eq_ok.mp htyped
        by_cases href : p.ty.isRef = true
        · rw [if_pos href] at hlast
          cases hlast
          exact .retRef hrecorded hplain hplace hp href
        · rw [if_neg href] at hlast
          cases hlast
          exact .ret hrecorded
  · rw [if_neg hplain] at hrest
    cases hrest
    exact .ret hrecorded

theorem Step.record_recorded {s : Scene} {step : Step} {r r' : Record}
    (h : step.record s r = .ok r') : StepRecorded s step r r' := by
  cases step with
  | start =>
      cases h
      exact .start
  | finish =>
      cases h
      exact .finish
  | jump =>
      cases h
      exact .jump
  | instructions stmts => exact .instructions (Stmt.foldlM_recorded h)
  | branch cond => exact .branch (Expr.record_recorded h)
  | loop cond => exact .loop (Expr.record_recorded h)
  | ret value span =>
      cases value with
      | none =>
          cases h
          exact .leave
      | some value => exact Expr.recordReturn_recorded h
  | switch discriminant span => cases h

theorem StepRecorded.acts {s : Scene} {step : Step} {r r' : Record}
    (h : StepRecorded s step r r') : Acts s r r' := by
  cases h with
  | start | finish | jump | leave => exact .refl
  | instructions h => exact h.acts
  | branch h | loop h | ret h => exact h.acts (by simp)
  | retRef h _ _ hp href => exact (h.acts (by simp)).tail (.ret hp href)

/-- Nodes are recorded one after the other, from node `n` on. Each starts without facts of its
own. -/
inductive NodesRecorded (d : Declared) :
    NodeId → List Node → Regions → List Loan → Facts → Prop where
  | nil {n regions loans} : NodesRecorded d n [] regions loans ⟨d, regions, loans, []⟩
  | cons {n node rest regions loans r facts}
      (hfirst : StepRecorded ⟨d, n⟩ node.step ⟨regions, loans, .empty⟩ r)
      (hrest : NodesRecorded d (n + 1) rest r.regions r.loans facts) :
      NodesRecorded d n (node :: rest) regions loans { facts with nodes := r.facts :: facts.nodes }

theorem Facts.recordNodes_recorded {d : Declared} {n : NodeId} {nodes : List Node}
    {regions : Regions} {loans : List Loan} {facts : Facts}
    (h : Facts.recordNodes d regions loans n nodes = .ok facts) :
    NodesRecorded d n nodes regions loans facts := by
  induction nodes generalizing n regions loans facts with
  | nil =>
      cases h
      exact .nil
  | cons node rest ih =>
      obtain ⟨r, hfirst, hmore⟩ := bind_eq_ok.mp h
      obtain ⟨later, hrest, hend⟩ := bind_eq_ok.mp hmore
      cases hend
      exact .cons (Step.record_recorded hfirst) (ih hrest)

/-- The facts of a function are those of its nodes, with the types that its declarations give. -/
theorem Function.facts_recorded {f : Function} {facts : Facts} (h : f.facts = .ok facts) :
    ∃ registry, f.registry = .ok registry ∧
      NodesRecorded registry.declared 0 f.nodes registry.regions [] facts := by
  obtain ⟨registry, hregistry, hrest⟩ := bind_eq_ok.mp h
  exact ⟨registry, hregistry, Facts.recordNodes_recorded hrest⟩

end LoanScope
