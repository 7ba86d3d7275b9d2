import LoanScope.Proofs.Fixture.Facts
import LoanScope.Proofs.Fixture.Inferred

/-! The variables that may hold a reference. The region of a loan contains every node at which one
of them is live, however the reference came there. -/

namespace LoanScope

namespace Fixture

/-! ### Assignments as they are recorded -/

theorem Expr.IsAssignment.boundTo {names : List String} {left right e : Expr} {e' : LoanScope.Expr}
    (h : left.IsAssignment right e) (hbound : e.BoundTo names e') :
    ∃ id span left' right', e' = .binary id span .assign left' right' ∧ left.BoundTo names left' ∧
      right.BoundTo names right' := by
  cases h with
  | assign =>
      cases hbound with
      | assign hl hr => exact ⟨_, _, _, _, rfl, hl, hr⟩
  | binary =>
      cases hbound with
      | binary hl hr => exact ⟨_, _, _, _, rfl, hl, hr⟩

theorem Expr.IsAddressOf.boundTo {names : List String} {operand e : Expr} {e' : LoanScope.Expr}
    (h : operand.IsAddressOf e) (hbound : e.BoundTo names e') :
    ∃ id span operand', e' = .unary id span .addrOf operand' ∧ operand.BoundTo names operand' := by
  cases h with
  | addrOf =>
      cases hbound with
      | addrOf h => exact ⟨_, _, _, rfl, h⟩
  | unary =>
      cases hbound with
      | unary h => exact ⟨_, _, _, rfl, h⟩

section assigns

variable {names : List String} {s : Scene} {stmt : Stmt} {stmt' : LoanScope.Stmt} {target : Place}
  {value : Expr} {r r' : Record}

/-- An assignment is recorded as a write of its target, then as its value, and then as what the
value passes on. -/
theorem Stmt.Assigns.recorded (h : stmt.Assigns names target value)
    (hbound : stmt.BoundTo names stmt') (hrec : StmtRecorded s stmt' r r') :
    ∃ dest value' r₁, dest.place = target ∧ dest.Typed s.declared ∧ value.BoundTo names value' ∧
      Recorded s (some dest) value' (r.access target .write .shallow) r₁ ∧
      Transferred s dest value' r₁ r' := by
  cases h with
  | decl =>
      cases hbound with
      | init hvar hinit hb =>
          cases hrec with
          | decl hnone => simp [hnone] at hinit
          | @init _ _ init' _ r₁ _ dest hinit' hplace htarget hvalue hpass =>
              rw [hinit] at hinit'
              cases hinit'
              rw [hvar] at hplace
              rw [hplace] at hvalue
              exact ⟨dest, _, r₁, hplace, htarget, hb, hvalue, hpass⟩
  | expr hform hleft =>
      cases hbound with
      | expr hb =>
          obtain ⟨id, span, left', right', rfl, hl, hr⟩ := hform.boundTo hb
          cases hrec with
          | expr hrec =>
              cases hrec with
              | @assign _ _ _ _ _ _ r₁ _ dest hplace htarget hright hpass =>
                  rw [hl.place?_iff.mpr hleft] at hplace
                  cases hplace
                  exact ⟨dest, right', r₁, rfl, htarget, hr, hright, hpass⟩
              | binary hop _ _ => exact absurd rfl hop

/-- An assigned address makes a loan with the next number, and the assignment is recorded with
it. -/
theorem Stmt.Assigns.records_borrow (h : stmt.Assigns names target value)
    (hbound : stmt.BoundTo names stmt') (hrec : StmtRecorded s stmt' r r') {path : Expr}
    (haddr : path.IsAddressOf value) :
    ∃ (dest : TypedPlace) (loan : Loan), dest.place = target ∧ dest.Typed s.declared ∧
      dest.ty.isRef ∧
      r'.loans[r.loans.length]? = some loan ∧ loan.origin = s.node ∧ path.Denotes names loan.place ∧
      loan.region < r'.regions.size ∧ ⟨dest, .borrow r.loans.length⟩ ∈ r'.facts.assignments := by
  obtain ⟨dest, value', r₁, hplace, hdest, hb, hvalue, hpass⟩ := h.recorded hbound hrec
  obtain ⟨id, span, path', rfl, hp⟩ := haddr.boundTo hb
  cases hvalue with
  | unary haddr _ _ => exact absurd rfl haddr
  | @borrow _ _ _ _ lent _ kind hlent _ hkind =>
      have href : dest.ty.isRef := by
        cases hty : dest.ty with
        | builtin _ _ => simp [hty, Ty.kind?] at hkind
        | ref _ _ _ _ _ => rfl
      cases hpass with
      | pass h _ _ _ => simp [LoanScope.Expr.isVar, LoanScope.Expr.isDeref] at h
      | skip _ =>
          exact ⟨dest, _, hplace, hdest, href, Record.getElem?_loans_borrow _ _ _ _ _ _ _, rfl,
            hp.place?_iff.mp hlent, Record.lt_regions_borrow _ _ _ _ _ _ _,
            Record.mem_assignments_borrow _ _ _ _ _ _ _⟩

/-- An assigned variable passes its value on, and the assignment is recorded if it is a
reference. -/
theorem Stmt.Assigns.records_pass {x : String} {u : Variable}
    (h : stmt.Assigns names target (.var x)) (hbound : stmt.BoundTo names stmt')
    (hrec : StmtRecorded s stmt' r r') (hx : Means names x u) :
    ∃ dest src : TypedPlace, dest.place = target ∧ dest.Typed s.declared ∧ src.place = .var u ∧
      src.Typed s.declared ∧ dest.ty.isRef = src.ty.isRef ∧
      (dest.ty.isRef → ⟨dest, .place src⟩ ∈ r'.facts.assignments) := by
  obtain ⟨dest, value', r₁, hplace, hdest, hb, -, hpass⟩ := h.recorded hbound hrec
  cases hpass with
  | skip h =>
      cases hb with
      | var _ => simp [LoanScope.Expr.isVar] at h
  | @pass src kind _ hsrc htyped hkind =>
      rw [hb.place?_iff.mpr (.var hx), Except.ok.injEq, Option.some.injEq] at hsrc
      refine ⟨dest, src, hplace, hdest, hsrc.symm, htyped,
        TransferKind.isRef_eq_of_classify hkind, ?_⟩
      intro href
      exact Record.mem_assignments_pass.mpr (.inr ⟨href, rfl⟩)

end assigns

/-! ### Declared variables -/

/-- The variable that a place starts from is declared. -/
theorem Expr.Denotes.declared {names : List String} {e : Expr} {p : Place} (h : e.Denotes names p) :
    names[p.root.decl]? = some p.root.name := by
  induction h with
  | var h => exact h.declared.trans (congrArg some h.name_eq.symm)
  | deref _ ih => exact ih
  | unaryDeref _ ih => exact ih
  | dot _ ih => exact ih
  | arrow _ ih => exact ih
  | paren _ ih => exact ih

theorem Stmt.Assigns.declared {names : List String} {stmt : Stmt} {v : Variable} {value : Expr}
    (h : stmt.Assigns names (.var v) value) : (names ++ stmt.declares)[v.decl]? = some v.name := by
  cases h with
  | decl => simp [nextVariable, declares]
  | expr _ hleft => exact getElem?_of_prefix (List.prefix_append _ _) hleft.declared

end Fixture

/-- The region has all the points of the region of a variable, which is a reference. -/
def Check.Outlives (c : Check) (region : RegionId) (v : Variable) : Prop :=
  ∃ ty r, (Place.var v).typeIn c.facts.declared = .ok ty ∧ (v, ty) ∈ c.facts.declared.entries ∧
    ty.region? = some r ∧ r < c.regions.size ∧ ∀ p ∈ c.regions.points r, p ∈ c.regions.points region

theorem Check.Outlives.mono {c : Check} {region more : RegionId} {v : Variable}
    (h : c.Outlives region v) (hsub : ∀ p ∈ c.regions.points region, p ∈ c.regions.points more) :
    c.Outlives more v := by
  obtain ⟨ty, r, hty, he, hr, hlt, hpoints⟩ := h
  exact ⟨ty, r, hty, he, hr, hlt, fun p hp => hsub p (hpoints p hp)⟩

namespace Fixture.Inferred

variable {f : Fixture} {config : Config} {c : Check} (h : f.Inferred config c)

include h

theorem length_nodes : c.facts.nodes.length = c.function.graph.size := by
  rw [Facts.length_nodes h.facts_eq, h.functionOf.size]

theorem exists_node {n : NodeId} {here : NodeFacts} (hhere : c.facts.nodes[n]? = some here) :
    ∃ node, c.function.nodes[n]? = some node := by
  have hlt := lt_length_of_getElem? hhere
  rw [h.length_nodes, h.functionOf.size] at hlt
  exact ⟨_, List.getElem?_eq_getElem hlt⟩

/-- The declared type of a variable. -/
theorem mem_entries {p : TypedPlace} {v : Variable} (hp : p.Typed c.facts.declared)
    (hplace : p.place = .var v) (hv : f.declaredNames[v.decl]? = some v.name) :
    (v, p.ty) ∈ c.facts.declared.entries ∧ p.ty.Placed c.regions.size := by
  obtain ⟨hvariables, hplaced⟩ := h.functionOf.declared_entries h.facts_eq
  obtain ⟨e, he, hdecl, hty⟩ := hp.mem_entries hplace
  have hmem : e.1 ∈ variablesFrom 0 f.declaredNames := hvariables ▸ List.mem_map_of_mem he
  obtain ⟨j, hj, hname⟩ := mem_variablesFrom.mp hmem
  rw [Nat.zero_add] at hj
  rw [← hj, hdecl, hv, Option.some.injEq] at hname
  have hsame : e = (v, p.ty) := Prod.ext (Variable.eq_of hdecl hname.symm) hty
  rw [h.size_eq, ← hsame, ← hty]
  exact ⟨he, hplaced e he⟩

/-- A reference that is assigned is outlived by what flows into it. -/
theorem outlives_of_relates {n : NodeId} {here : NodeFacts} (hhere : c.facts.nodes[n]? = some here)
    {dest : TypedPlace} {source : Source} (ha : ⟨dest, source⟩ ∈ here.assignments)
    (hdest : dest.Typed c.facts.declared) (href : dest.ty.isRef) {w : Variable}
    (hplace : dest.place = .var w) (hw : f.declaredNames[w.decl]? = some w.name) {s : RegionId}
    (hs : s < c.regions.size)
    (hrelates : ∀ t, dest.ty.region? = some t →
      Assignment.Relates c.facts.loans ⟨dest, source⟩ s t) :
    c.Outlives s w := by
  obtain ⟨node, hnode⟩ := h.exists_node hhere
  obtain ⟨he, hplaced⟩ := h.mem_entries hdest hplace hw
  obtain ⟨t, ht⟩ := hplaced.exists_region href
  rw [TypedPlace.Typed, hplace] at hdest
  exact ⟨dest.ty, t, hdest, he, ht, hplaced.region_lt ht,
    Facts.points_of_relates h.constraints_eq hnode hhere ha ht (hrelates t ht) h.holdsIn hs⟩

/-- The loan that a variable is assigned, and its region. -/
theorem exists_loan {o : NodeId} {i : Nat} {stmt : Stmt} {v : Variable} {value path : Expr}
    (hstmt : (f.stmtsAt o)[i]? = some stmt)
    (hassign : stmt.Assigns (f.declaredBefore o i) (.var v) value)
    (haddr : path.IsAddressOf value) :
    ∃ loan, c.facts.loans[f.nextLoan o i]? = some loan ∧ loan.origin = o ∧
      path.Denotes (f.declaredBefore o i) loan.place ∧ c.Outlives loan.region v := by
  obtain ⟨stmt', r₁, r₂, here, hbound, hrec, hlen, hhere, hassignments, hloans, hregions⟩ :=
    h.functionOf.recorded_stmt h.facts_eq hstmt
  obtain ⟨dest, loan, hplace, hdest, href, hloan, horigin, hlent, hlt, ha⟩ :=
    hassign.records_borrow hbound hrec haddr
  rw [hlen] at hloan ha
  have hfiled := getElem?_of_prefix hloans hloan
  refine ⟨loan, hfiled, horigin, hlent, ?_⟩
  refine h.outlives_of_relates hhere (hassignments.subset ha) hdest href hplace ?_ ?_ ?_
  · exact getElem?_of_prefix (h.functionOf.isPrefix_declaredNames hstmt) hassign.declared
  · rw [h.size_eq]
    exact Nat.lt_of_lt_of_le hlt hregions.length_le
  · intro t ht
    exact .borrow hfiled ht

/-- A region that outlives a variable outlives those that are given its value. -/
theorem outlives_passed {region : RegionId} {n : NodeId} {i : Nat} {stmt : Stmt} {u w : Variable}
    {x : String} (hu : c.Outlives region u) (hstmt : (f.stmtsAt n)[i]? = some stmt)
    (hassign : stmt.Assigns (f.declaredBefore n i) (.var w) (.var x))
    (hx : Means (f.declaredBefore n i) x u) : c.Outlives region w := by
  obtain ⟨stmt', r₁, r₂, here, hbound, hrec, -, hhere, hassignments, -, -⟩ :=
    h.functionOf.recorded_stmt h.facts_eq hstmt
  obtain ⟨dest, src, hplace, hdest, hsource, hsrc, hrefs, ha⟩ := hassign.records_pass hbound hrec hx
  obtain ⟨ty, s, hty, -, hs, hlt, hpoints⟩ := hu
  -- The type of the source is the one that is known to outlive.
  rw [TypedPlace.Typed, hsource, hty, Except.ok.injEq] at hsrc
  subst hsrc
  have href : dest.ty.isRef := hrefs.trans (Ty.isRef_of_region? hs)
  refine Check.Outlives.mono ?_ hpoints
  refine h.outlives_of_relates hhere (hassignments.subset (ha href)) hdest href hplace ?_ hlt ?_
  · exact getElem?_of_prefix (h.functionOf.isPrefix_declaredNames hstmt) hassign.declared
  · intro t ht
    exact .place (i := 0) (by simpa using hs) (by simpa using ht)

/-- A region that outlives a variable outlives all that may hold its value. -/
theorem outlives_holder {region : RegionId} {v w : Variable} (hv : c.Outlives region v)
    (hw : f.Holder v w) : c.Outlives region w := by
  induction hw with
  | self => exact hv
  | passed _ hstmt hassign hx ih => exact h.outlives_passed ih hstmt hassign hx

/-- A region that outlives a variable has the nodes at which its name is live. -/
theorem mem_points_of_live {region : RegionId} {v : Variable} (hv : c.Outlives region v)
    {n : NodeId} (hlive : v.name ∈ f.liveAt n) : n ∈ c.regions.points region := by
  obtain ⟨ty, r, -, he, hr, hlt, hpoints⟩ := hv
  cases hnode : f.sortedNodes[n]? with
  | none => simp [liveAt, h.functionOf.nodeAt?_eq, hnode] at hlive
  | some node =>
      obtain ⟨node', hnode', hsame, -⟩ := h.functionOf.nodes.getElem? hnode
      obtain ⟨step, _, r', _, _, _, hhere, -⟩ := h.functionOf.recorded_node h.facts_eq hnode
      have hname : v.name ∈ node'.liveIn := by
        simpa [liveAt, h.functionOf.nodeAt?_eq, hnode, hsame] using hlive
      have hmem := Facts.live_mem_constraints h.constraints_eq hnode' hhere he hname
        (Ty.mem_regions_of_region? hr)
      exact hpoints n (h.holdsIn _ hmem hlt n rfl)

end Fixture.Inferred

end LoanScope
