import LoanScope.Proofs.Facts.Declarations
import LoanScope.Proofs.Facts.Recording
import LoanScope.Proofs.Function.Parts

/-! How recording a function fails. If every variable in it has a type, then no fault says of a
variable that it is not declared. -/

namespace LoanScope

/-! ### Computations that fail in some ways only -/

/-- If the computation fails, then with an error of which `P` holds. -/
def FailsOnly {ε α : Type} (P : ε → Prop) (x : Except ε α) : Prop := ∀ e, x = .error e → P e

namespace FailsOnly

variable {ε α β : Type} {P : ε → Prop}

theorem ok (a : α) : FailsOnly P (.ok a) := by
  intro e h
  cases h

theorem error {e : ε} (h : P e) : FailsOnly P (.error e : Except ε α) := by
  intro e' he
  cases he
  exact h

theorem bind {x : Except ε α} {next : α → Except ε β} (hx : FailsOnly P x)
    (hnext : ∀ a, x = .ok a → FailsOnly P (next a)) : FailsOnly P (x >>= next) := by
  intro e he
  rcases bind_eq_error.mp he with herror | ⟨a, ha, herror⟩
  · exact hx e herror
  · exact hnext a ha e herror

theorem foldlM {step : β → α → Except ε β} {as : List α}
    (h : ∀ a ∈ as, ∀ b, FailsOnly P (step b a)) (b : β) : FailsOnly P (as.foldlM step b) := by
  induction as generalizing b with
  | nil => exact ok b
  | cons a rest ih =>
      refine (h a (by simp) b).bind fun b' _ => ?_
      exact ih (fun a' ha' => h a' (List.mem_cons_of_mem a ha')) b'

end FailsOnly

/-- The cause is not that a variable is undeclared. -/
def Cause.NotUndeclared : Cause → Prop
  | .type (.unknownDeclaration _) => False
  | _ => True

def Fault.NotUndeclared (f : Fault) : Prop := f.cause.NotUndeclared

theorem Fault.NotUndeclared.cause_ne {f : Fault} (h : f.NotUndeclared) (x : String) :
    f.cause ≠ .type (.unknownDeclaration x) := by
  intro hcause
  rw [NotUndeclared, hcause] at h
  exact h

theorem Cause.locate_failsOnly {α : Type} {x : Except Cause α} (h : FailsOnly Cause.NotUndeclared x)
    (span : FileSpan) : FailsOnly Fault.NotUndeclared (Cause.locate span x) := by
  cases x with
  | ok a => exact .ok a
  | error cause => exact .error (h cause rfl)

/-! ### Places -/

/-- Every variable in the expression has a type. -/
def Expr.Scoped (d : Declared) (e : Expr) : Prop :=
  ∀ part ∈ e.parts, ∀ v, part.target? = some v → ∃ ty, d.get? v.decl = some ty

namespace Expr

variable {d : Declared} {id : ExprId} {span : FileSpan}

@[simp] theorem scoped_var {v : Variable} :
    (var id span v).Scoped d ↔ ∃ ty, d.get? v.decl = some ty := by
  simp [Scoped, parts, target?]

@[simp] theorem scoped_binary {op : BinaryOp} {left right : Expr} :
    (binary id span op left right).Scoped d ↔ left.Scoped d ∧ right.Scoped d := by
  simp [Scoped, parts, target?, or_imp, forall_and]

@[simp] theorem scoped_unary {op : UnaryOp} {operand : Expr} :
    (unary id span op operand).Scoped d ↔ operand.Scoped d := by
  simp [Scoped, parts, target?, or_imp, forall_and]

@[simp] theorem scoped_paren {inner : Expr} : (paren id span inner).Scoped d ↔ inner.Scoped d := by
  simp [Scoped, parts, target?, or_imp, forall_and]

@[simp] theorem scoped_member {base : Expr} {field : String} {arrow : Bool} :
    (member id span base field arrow).Scoped d ↔ base.Scoped d := by
  simp [Scoped, parts, target?, or_imp, forall_and]

@[simp] theorem scoped_call {callee : String} {args : List Expr} {ty : Option TypeRef} :
    (call id span callee args ty).Scoped d ↔ ∀ arg ∈ args, arg.Scoped d := by
  simp only [Scoped, parts, listParts_eq_flatMap, List.mem_append, List.mem_flatMap,
    List.mem_singleton]
  constructor
  · intro h arg harg part hpart
    exact h part (.inl ⟨arg, harg, hpart⟩)
  · rintro h part (⟨arg, harg, hpart⟩ | rfl)
    · exact h arg harg part hpart
    · simp [target?]

/-- The place that an expression names starts with one of its variables. -/
theorem Scoped.root {e : Expr} {p : Place} (h : e.Scoped d) (hp : e.place? = .ok (some p)) :
    ∃ ty, d.get? p.root.decl = some ty := by
  induction e using Expr.place?.induct generalizing p with
  | case1 id span value => cases hp
  | case2 id span v =>
      cases hp
      exact scoped_var.mp h
  | case3 id span operand ih =>
      obtain ⟨q, hq, rfl⟩ := place?_deref.mp hp
      rw [Place.root]
      exact ih (scoped_unary.mp h) hq
  | case4 id span base field arrow ih =>
      obtain ⟨q, hq, rfl⟩ := place?_member.mp hp
      have hroot := ih (scoped_member.mp h) hq
      cases arrow <;> exact hroot
  | case5 id span inner ih => exact ih (scoped_paren.mp h) hp
  | case6 id span op operand hop =>
      rw [Expr.place?] at hp
      · cases hp
      · exact hop
  | case7 | case8 => cases hp

theorem place?_failsOnly (e : Expr) : FailsOnly Fault.NotUndeclared e.place? := by
  induction e using Expr.place?.induct with
  | case1 | case2 => exact .ok _
  | case3 id span operand ih | case4 id span operand field arrow ih =>
      rw [Expr.place?]
      refine ih.bind fun place _ => ?_
      cases place with
      | none => exact .error trivial
      | some p => exact .ok _
  | case5 id span inner ih => exact ih
  | case6 id span op operand hop =>
      rw [Expr.place?]
      · exact .error trivial
      · exact hop
  | case7 | case8 => exact .error trivial

theorem place_failsOnly (span : FileSpan) (e : Expr) :
    FailsOnly Fault.NotUndeclared (e.place span) := by
  refine e.place?_failsOnly.bind fun place _ => ?_
  cases place with
  | none => exact .error trivial
  | some p => exact .ok p

end Expr

namespace Place

variable {d : Declared} {p : Place}

theorem typeIn_failsOnly (h : ∃ ty, d.get? p.root.decl = some ty) :
    FailsOnly Cause.NotUndeclared (p.typeIn d) := by
  induction p with
  | var v =>
      obtain ⟨ty, hty⟩ := h
      rw [root] at hty
      rw [typeIn, hty]
      exact .ok ty
  | deref base ih =>
      rw [typeIn]
      refine (ih h).bind fun ty _ => ?_
      cases ty with
      | builtin kind isConst => exact .error trivial
      | ref kind pointee region isConst isRestrict => exact .ok pointee
  | member base field ih => exact .error trivial

theorem typed_failsOnly (h : ∃ ty, d.get? p.root.decl = some ty) (span : FileSpan) :
    FailsOnly Fault.NotUndeclared (p.typed d span) :=
  (Cause.locate_failsOnly (typeIn_failsOnly h) span).bind fun _ _ => .ok _

end Place

theorem Expr.Scoped.typed_failsOnly {d : Declared} {e : Expr} {p : Place} (h : e.Scoped d)
    (hp : e.place? = .ok (some p)) (span : FileSpan) :
    FailsOnly Fault.NotUndeclared (p.typed d span) :=
  Place.typed_failsOnly (h.root hp) span

/-! ### Expressions -/

theorem TransferKind.classify_failsOnly (dest src : Ty) :
    FailsOnly (fun e => (Cause.type e).NotUndeclared) (classify dest src) := by
  rw [classify]
  split
  · exact .ok _
  · exact .ok _
  · exact .error trivial

namespace Expr

variable {s : Scene} {e : Expr}

theorem recordBorrow_failsOnly (h : e.Scoped s.declared) (id : ExprId) (span : FileSpan)
    (dest : Option TypedPlace) (r : Record) :
    FailsOnly Fault.NotUndeclared (e.recordBorrow s id span dest r) := by
  refine (e.place_failsOnly span).bind fun place hplace => ?_
  refine (h.typed_failsOnly (place_eq_ok.mp hplace) span).bind fun lent _ => ?_
  cases dest with
  | none => exact .error trivial
  | some target =>
      cases hkind : target.ty.kind? with
      | none =>
          simp only [hkind]
          exact .error trivial
      | some kind =>
          simp only [hkind]
          exact .ok _

theorem recordArgs_failsOnly {args : List Expr} (h : ∀ arg ∈ args, arg.Scoped s.declared)
    (span : FileSpan) (asked : Bool) (r : Record) :
    FailsOnly Fault.NotUndeclared (recordArgs s span asked r args) := by
  induction args generalizing r with
  | nil => exact .ok _
  | cons e rest ih =>
      have hrest := ih fun arg harg => h arg (List.mem_cons_of_mem e harg)
      rw [recordArgs]
      refine e.place?_failsOnly.bind fun place hplace => ?_
      cases place with
      | none => exact hrest r
      | some place =>
          have hfound : FailsOnly Fault.NotUndeclared (place.typed s.declared span) :=
            (h e List.mem_cons_self).typed_failsOnly hplace span
          cases asked with
          | false => exact (hrest _).bind fun _ _ => .ok _
          | true => exact hfound.bind fun _ _ => (hrest _).bind fun _ _ => .ok _

theorem recordTransfer_failsOnly (h : e.Scoped s.declared) (dest : TypedPlace) (r : Record) :
    FailsOnly Fault.NotUndeclared (e.recordTransfer s dest r) := by
  rw [recordTransfer]
  split
  · refine e.place?_failsOnly.bind fun place hplace => ?_
    cases place with
    | none => exact .ok r
    | some place =>
        refine (h.typed_failsOnly hplace e.span).bind fun src _ => ?_
        cases hkind : TransferKind.classify dest.ty src.ty with
        | error cause => exact .error (TransferKind.classify_failsOnly dest.ty src.ty cause hkind)
        | ok kind => exact .ok _
  · exact .ok r

theorem record_failsOnly (h : e.Scoped s.declared) (dest : Option TypedPlace) (r : Record) :
    FailsOnly Fault.NotUndeclared (e.record s dest r) := by
  induction dest, r, e using Expr.record.induct with
  | case1 dest r id span value => exact .ok r
  | case2 dest r id span left right ih =>
      obtain ⟨hleft, hright⟩ := scoped_binary.mp h
      rw [Expr.record]
      refine (left.place_failsOnly left.span).bind fun place hplace => ?_
      refine (hleft.typed_failsOnly (place_eq_ok.mp hplace) left.span).bind fun target _ => ?_
      exact (ih _ _ hright).bind fun r _ => recordTransfer_failsOnly hright target r
  | case3 dest r id span op left right hop ihl ihr =>
      obtain ⟨hleft, hright⟩ := scoped_binary.mp h
      rw [Expr.record]
      · exact (ihl hleft).bind fun r _ => ihr r hright
      · exact hop
  | case4 dest r id span operand =>
      rw [Expr.record]
      exact recordBorrow_failsOnly (scoped_unary.mp h) id span dest r
  | case5 dest r id span operand =>
      rw [Expr.record]
      refine (place?_failsOnly _).bind fun place hplace => ?_
      cases place with
      | none => exact .ok r
      | some place => exact (h.typed_failsOnly hplace span).bind fun _ _ => .ok _
  | case6 dest r id span op operand haddr hderef ih =>
      rw [Expr.record]
      · exact ih (scoped_unary.mp h)
      · exact haddr
      · exact hderef
  | case7 dest r id span callee args ty =>
      rw [Expr.record]
      refine (recordArgs_failsOnly (scoped_call.mp h) span _ r).bind fun found _ => ?_
      cases dest.filter (·.ty.isRef) <;> exact .ok _
  | case8 dest r id span v =>
      rw [Expr.record]
      exact (Place.typed_failsOnly (scoped_var.mp h) span).bind fun _ _ => .ok _
  -- Parentheses and members are refused, whatever is in them.
  | case9 | case10 => exact .error trivial

theorem recordReturn_failsOnly (h : e.Scoped s.declared) (r : Record) :
    FailsOnly Fault.NotUndeclared (e.recordReturn s r) := by
  refine (record_failsOnly h none r).bind fun r _ => ?_
  split
  · refine e.place?_failsOnly.bind fun place hplace => ?_
    cases place with
    | none => exact .ok r
    | some place => exact (h.typed_failsOnly hplace e.span).bind fun _ _ => .ok _
  · exact .ok r

end Expr

/-! ### Nodes -/

/-- The variables of the node's expressions have types, and so have those that it declares. -/
structure Step.Scoped (d : Declared) (s : Step) : Prop where
  roots : ∀ e ∈ s.roots, e.Scoped d
  decls : ∀ v ∈ s.decls, ∃ ty, d.get? v.id = some ty

theorem Stmt.record_failsOnly {s : Scene} {stmt : Stmt}
    (hroot : ∀ e, stmt.root? = some e → e.Scoped s.declared)
    (hdecl : ∀ v, stmt.decl? = some v → ∃ ty, s.declared.get? v.id = some ty) (r : Record) :
    FailsOnly Fault.NotUndeclared (stmt.record s r) := by
  cases stmt with
  | decl id d =>
      rw [Stmt.record, Decl.record]
      cases hinit : d.init with
      | none => exact .ok r
      | some init =>
          have hscoped : init.Scoped s.declared := hroot init hinit
          have htarget : FailsOnly Fault.NotUndeclared
              ((Place.var d.variable).typed s.declared d.span) :=
            Place.typed_failsOnly (hdecl d rfl) d.span
          refine htarget.bind fun target _ => ?_
          exact (Expr.record_failsOnly hscoped _ _).bind fun r _ =>
            Expr.recordTransfer_failsOnly hscoped target r
  | expr id e => exact Expr.record_failsOnly (hroot e rfl) none r
  | label id name span => exact .ok r

theorem Step.record_failsOnly {s : Scene} {step : Step} (h : step.Scoped s.declared) (r : Record) :
    FailsOnly Fault.NotUndeclared (step.record s r) := by
  have hexpr : ∀ e, step.expr? = some e → e.Scoped s.declared := by
    intro e he
    exact h.roots e (by simp [Step.roots, he])
  cases step with
  | start | finish | jump => exact .ok r
  | instructions stmts =>
      refine FailsOnly.foldlM (fun stmt hstmt r => Stmt.record_failsOnly ?_ ?_ r) r
      · intro e he
        exact h.roots e (List.mem_append_left _ (List.mem_filterMap.mpr ⟨stmt, hstmt, he⟩))
      · intro v hv
        refine h.decls v ?_
        rw [Step.decls_eq]
        exact List.mem_filterMap.mpr ⟨stmt, hstmt, hv⟩
  | branch cond => exact Expr.record_failsOnly (hexpr cond rfl) none r
  | loop cond => exact Expr.record_failsOnly (hexpr cond rfl) none r
  | ret value span =>
      cases value with
      | none => exact .ok r
      | some value => exact Expr.recordReturn_failsOnly (hexpr value rfl) r
  | switch cond span => exact .error trivial

theorem Facts.recordNodes_failsOnly {declared : Declared} {nodes : List Node}
    (h : ∀ node ∈ nodes, node.step.Scoped declared) (regions : Regions) (loans : List Loan)
    (n : NodeId) :
    FailsOnly Fault.NotUndeclared (Facts.recordNodes declared regions loans n nodes) := by
  induction nodes generalizing regions loans n with
  | nil => exact .ok _
  | cons node rest ih =>
      rw [Facts.recordNodes]
      refine (Step.record_failsOnly (h node List.mem_cons_self) _).bind fun r _ => ?_
      exact (ih (fun node' hnode => h node' (List.mem_cons_of_mem node hnode)) _ _ _).bind
        fun _ _ => .ok _

/-! ### Functions -/

theorem CType.toTyUnder_failsOnly (t : CType) (quals : Qualifiers) :
    FailsOnly Cause.NotUndeclared (t.toTyUnder quals) := by
  induction t generalizing quals with
  | builtin kind =>
      rw [toTyUnder]
      split
      · exact .error trivial
      · exact .ok _
  | pointer pointee ih =>
      rw [toTyUnder]
      refine (ih .none).bind fun p _ => ?_
      split
      · exact .error trivial
      · exact .ok _
  | qualified qualifiers inner ih => exact ih _
  | typedef name underlying ih => exact ih quals
  | elaborated keyword name => exact .error trivial

theorem Registry.foldlM_add_failsOnly (site : DeclId → Site) (decls : List Decl) (r : Registry) :
    FailsOnly Fault.NotUndeclared (decls.foldlM (Registry.add site) r) := by
  refine FailsOnly.foldlM (fun d _ r => ?_) r
  exact (Cause.locate_failsOnly (d.ty.ty.toTyUnder_failsOnly .none) d.span).bind fun _ _ => .ok _

theorem Function.registry_failsOnly (f : Function) : FailsOnly Fault.NotUndeclared f.registry := by
  refine (Registry.foldlM_add_failsOnly .param f.params _).bind fun r _ => ?_
  cases f.returnTy with
  | none => exact Registry.foldlM_add_failsOnly .decl _ r
  | some ty =>
      refine (Cause.locate_failsOnly (ty.ty.toTyUnder_failsOnly .none) f.span).bind fun _ _ => ?_
      exact Registry.foldlM_add_failsOnly .decl _ r

/-- If all variables have types by the time that nodes are recorded, none is found to be
undeclared. -/
theorem Function.facts_failsOnly {f : Function}
    (h : ∀ r, f.registry = .ok r → ∀ node ∈ f.nodes, node.step.Scoped r.declared) :
    FailsOnly Fault.NotUndeclared f.facts :=
  f.registry_failsOnly.bind fun r hr => Facts.recordNodes_failsOnly (h r hr) _ _ _

end LoanScope
