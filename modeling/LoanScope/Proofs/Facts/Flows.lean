import LoanScope.Proofs.Facts.Typing

/-! Where the value of an assigned reference comes from. An address or a call is recorded as flowing
into the reference also from within operators, but a variable or a dereference only if it is the
whole value. -/

namespace LoanScope

/-! ### Values and assignments -/

namespace Expr

/-- The variables whose values may become that of an expression: operands of its operators, and both
sides of an assignment. -/
def carried : Expr → List Variable
  | var _ _ v => [v]
  | binary _ _ _ left right => left.carried ++ right.carried
  | unary _ _ .addrOf _ | unary _ _ .deref _ => []
  | unary _ _ _ operand => operand.carried
  | _ => []

/-- The expressions that operators compute a value from. Addresses, dereferences and assignments
count as values of their own. -/
def operands : Expr → List Expr
  | binary id span .assign left right => [binary id span .assign left right]
  | binary _ _ _ left right => left.operands ++ right.operands
  | unary id span .addrOf operand => [unary id span .addrOf operand]
  | unary id span .deref operand => [unary id span .deref operand]
  | unary _ _ _ operand => operand.operands
  | e => [e]

mutual

/-- All assignments in an expression, each with the place assigned to and the value. -/
def assignments : Expr → List (Place × Expr)
  | binary _ _ .assign left right =>
      match left.place? with
      | .ok (some place) => (place, right) :: (left.assignments ++ right.assignments)
      | _ => left.assignments ++ right.assignments
  | binary _ _ _ left right => left.assignments ++ right.assignments
  | unary _ _ _ operand => operand.assignments
  | call _ _ _ args _ => assignmentsList args
  | paren _ _ inner => inner.assignments
  | member _ _ base _ _ => base.assignments
  | lit .. | var .. => []

def assignmentsList : List Expr → List (Place × Expr)
  | [] => []
  | e :: rest => e.assignments ++ assignmentsList rest

end

/-- What names a place assigns nothing. -/
theorem assignments_of_place? {e : Expr} {p : Option Place} (h : e.place? = .ok p) :
    e.assignments = [] := by
  induction e using Expr.place?.induct generalizing p with
  | case1 | case2 => simp [assignments]
  | case3 id span operand ih =>
      rw [place?] at h
      obtain ⟨q, hq, -⟩ := bind_eq_ok.mp h
      simp only [assignments]
      exact ih hq
  | case4 id span base field arrow ih =>
      rw [place?] at h
      obtain ⟨q, hq, -⟩ := bind_eq_ok.mp h
      simp only [assignments]
      exact ih hq
  | case5 id span inner ih =>
      rw [place?] at h
      simp only [assignments]
      exact ih h
  | case6 id span op operand hop =>
      rw [place?] at h
      · cases h
      · exact hop
  | case7 | case8 => cases h

end Expr

def Stmt.assignments : Stmt → List (Place × Expr)
  | decl _ d => d.init.toList.flatMap fun init => (.var d.variable, init) :: init.assignments
  | expr _ e => e.assignments
  | label .. => []

def Step.assignments : Step → List (Place × Expr)
  | instructions stmts => stmts.flatMap Stmt.assignments
  | branch e | loop e | switch e _ => e.assignments
  | ret value _ => value.toList.flatMap Expr.assignments
  | start | finish | jump => []

/-- All assignments at a node, those of initialised declarations included. -/
def Function.assignmentsAt (f : Function) (n : NodeId) : List (Place × Expr) :=
  (f.nodes[n]?.map (·.step.assignments)).getD []

/-! ### Arguments -/

theorem TypedPlace.Typed.unique {d : Declared} {p q : TypedPlace} (hp : p.Typed d) (hq : q.Typed d)
    (hplace : p.place = q.place) : p = q := by
  obtain ⟨place, ty⟩ := p
  obtain ⟨place', ty'⟩ := q
  cases hplace
  have hty := hp.symm.trans hq
  cases hty
  rfl

theorem Expr.assignmentsList_of_recordArgs {s : Scene} {span : FileSpan} {asked : Bool}
    {r r' : Record} {args : List Expr} {found : List TypedPlace}
    (h : Expr.recordArgs s span asked r args = .ok (r', found)) :
    Expr.assignmentsList args = [] := by
  induction args generalizing r found with
  | nil => rfl
  | cons e rest ih =>
      rcases Expr.recordArgs_cons h with ⟨he, hrest⟩ | ⟨place, here, later, he, hrest, -, -⟩
      · rw [assignmentsList, assignments_of_place? he, ih hrest, List.append_nil]
      · rw [assignmentsList, assignments_of_place? he, ih hrest, List.append_nil]

/-- If arguments are asked for, each that is a reference is found. -/
theorem Expr.mem_of_recordArgs {s : Scene} {span : FileSpan} {r r' : Record} {args : List Expr}
    {found : List TypedPlace} (h : Expr.recordArgs s span true r args = .ok (r', found))
    {arg : Expr} (harg : arg ∈ args) {src : TypedPlace} (hplace : arg.place? = .ok (some src.place))
    (hsrc : src.Typed s.declared) (href : src.ty.isRef) : src ∈ found := by
  induction args generalizing r found with
  | nil => cases harg
  | cons e rest ih =>
      rcases Expr.recordArgs_cons h with ⟨he, hrest⟩ | ⟨place, here, later, he, hrest, rfl, hhere⟩
      · rcases List.mem_cons.mp harg with rfl | hlater
        · rw [he] at hplace
          cases hplace
        · exact ih hrest hlater
      · rcases List.mem_cons.mp harg with rfl | hlater
        · rw [he] at hplace
          cases hplace
          obtain ⟨hasked, -⟩ | ⟨p, hp, htyped, rfl⟩ := hhere
          · cases hasked
          · rw [htyped.unique hsrc hp, if_pos href]
            exact List.mem_append_left _ (List.mem_singleton.mpr rfl)
        · exact List.mem_append_right _ (ih hrest hlater)

/-! ### Every assignment is recorded -/

/-- An assignment is recorded, and what that adds is in the record. -/
structure Stored (s : Scene) (place : Place) (value : Expr) (r : Record) : Prop where
  recorded : ∃ target r₁ r₂ r₃, target.place = place ∧ target.Typed s.declared ∧
    Recorded s (some target) value r₁ r₂ ∧ Transferred s target value r₂ r₃ ∧ r₃.Extends r

theorem Stored.mono {s : Scene} {place : Place} {value : Expr} {r r' : Record}
    (h : Stored s place value r) (hext : r.Extends r') : Stored s place value r' := by
  obtain ⟨target, r₁, r₂, r₃, hplace, htarget, hvalue, hpass, hkept⟩ := h
  exact ⟨target, r₁, r₂, r₃, hplace, htarget, hvalue, hpass, hkept.trans hext⟩

/-- What an operator computes its value from is recorded for the same destination. -/
theorem Recorded.operand {s : Scene} {dest : Option TypedPlace} {e x : Expr} {r r' : Record}
    (h : Recorded s dest e r r') (hdest : ∀ d ∈ dest, d.Typed s.declared) (hx : x ∈ e.operands) :
    ∃ r₁ r₂, Recorded s dest x r₁ r₂ ∧ r₂.Extends r' := by
  induction e using Expr.operands.induct generalizing r r' with
  | case2 id span op left right hop ihl ihr =>
      rw [Expr.operands] at hx
      · cases h with
        | assign _ _ _ _ => exact absurd rfl hop
        | binary _ hleft hright =>
            rcases List.mem_append.mp hx with hmem | hmem
            · obtain ⟨r₁, r₂, hrec, hext⟩ := ihl hleft hmem
              exact ⟨r₁, r₂, hrec, hext.trans (hright.acts hdest).extends⟩
            · exact ihr hright hmem
      · exact hop
  | case5 id span op operand haddr hderef ih =>
      rw [Expr.operands] at hx
      · cases h with
        | borrow _ _ _ => exact absurd rfl haddr
        | deref _ _ => exact absurd rfl hderef
        | unary _ _ hoperand => exact ih hoperand hx
      · exact haddr
      · exact hderef
  | _ =>
      -- what is no operator is its own only operand
      simp only [Expr.operands, List.mem_singleton] at hx
      subst hx
      exact ⟨r, r', h, .refl r'⟩

section stored

variable {s : Scene} {r r' : Record} {place : Place} {value : Expr}

theorem Recorded.stored {dest : Option TypedPlace} {e : Expr} (h : Recorded s dest e r r')
    (hdest : ∀ d ∈ dest, d.Typed s.declared) (ha : (place, value) ∈ e.assignments) :
    Stored s place value r' := by
  induction h with
  | lit | var _ _ => simp [Expr.assignments] at ha
  | @assign dest id span left right r r₁ r₂ target hplace htarget hright hpass ih =>
      simp only [Expr.assignments, hplace, Expr.assignments_of_place? hplace, List.nil_append,
        List.mem_cons, Prod.mk.injEq] at ha
      rcases ha with ⟨rfl, rfl⟩ | hinside
      · exact ⟨target, _, _, _, rfl, htarget, hright, hpass, .refl r₂⟩
      · refine (ih ?_ hinside).mono (hpass.acts htarget).extends
        rintro d ⟨⟩
        exact htarget
  | binary hop _ hright ihl ihr =>
      rw [Expr.assignments] at ha
      · rcases List.mem_append.mp ha with hmem | hmem
        · exact (ihl hdest hmem).mono (hright.acts hdest).extends
        · exact ihr hdest hmem
      · exact hop
  -- what must be a place has no assignment in it
  | borrow hplace _ _ => simp [Expr.assignments, Expr.assignments_of_place? hplace] at ha
  | deref hplace _ => simp [Expr.assignments_of_place? hplace] at ha
  | call _ hargs | callTo _ hargs =>
      simp [Expr.assignments, Expr.assignmentsList_of_recordArgs hargs] at ha
  | unary _ _ _ ih => exact ih hdest (by simpa only [Expr.assignments] using ha)

theorem StmtRecorded.stored {stmt : Stmt} (h : StmtRecorded s stmt r r')
    (ha : (place, value) ∈ stmt.assignments) : Stored s place value r' := by
  cases h with
  | decl hinit => simp [Stmt.assignments, hinit] at ha
  | @init id d init r r₁ r₂ target hinit hplace htarget hvalue hpass =>
      simp only [Stmt.assignments, hinit, Option.toList_some, List.flatMap_singleton, List.mem_cons,
        Prod.mk.injEq] at ha
      rcases ha with ⟨rfl, rfl⟩ | hinside
      · exact ⟨target, _, _, _, hplace, htarget, hvalue, hpass, .refl r'⟩
      · refine (hvalue.stored ?_ hinside).mono (hpass.acts htarget).extends
        rintro d ⟨⟩
        exact htarget
  | expr h => exact h.stored (by simp) ha
  | label => cases ha

theorem StmtsRecorded.stored {stmts : List Stmt} (h : StmtsRecorded s stmts r r')
    (ha : (place, value) ∈ stmts.flatMap Stmt.assignments) : Stored s place value r' := by
  induction h with
  | nil => cases ha
  | cons hfirst hrest ih =>
      rw [List.flatMap_cons] at ha
      rcases List.mem_append.mp ha with hmem | hmem
      · exact (hfirst.stored hmem).mono hrest.acts.extends
      · exact ih hmem

theorem StepRecorded.stored {step : Step} (h : StepRecorded s step r r')
    (ha : (place, value) ∈ step.assignments) : Stored s place value r' := by
  cases h with
  | start | finish | jump | leave => cases ha
  | instructions h => exact h.stored ha
  | branch h | loop h => exact h.stored (by simp) ha
  | ret h => exact h.stored (by simp) (by simpa [Step.assignments] using ha)
  | retRef h _ _ hp href =>
      exact (h.stored (by simp) (by simpa [Step.assignments] using ha)).mono
        (Act.ret hp href).extends

end stored

/-! ### Only whole values are recorded as places -/

/-- The value is a variable or a dereference, and so names the place that it is taken from. -/
structure Expr.IsPlace (value : Expr) (place : Place) : Prop where
  shape : (value.isVar || value.isDeref) = true
  place_eq : value.place? = .ok (some place)

/-- Of the assignments that one record adds to another, those of places are in a list of
assignments, with the places for their values. -/
def Record.AddsPlaces (r r' : Record) (xs : List (Place × Expr)) : Prop :=
  ∀ dest src, ⟨dest, .place src⟩ ∈ r'.facts.assignments →
    ⟨dest, .place src⟩ ∈ r.facts.assignments ∨
      ∃ value, (dest.place, value) ∈ xs ∧ value.IsPlace src.place

namespace Record.AddsPlaces

variable {r r₁ r₂ : Record} {xs ys : List (Place × Expr)}

theorem of_eq (h : r₁.facts.assignments = r.facts.assignments) : r.AddsPlaces r₁ xs :=
  fun _ _ ha => .inl (h ▸ ha)

theorem trans (h : r.AddsPlaces r₁ xs) (h' : r₁.AddsPlaces r₂ ys) : r.AddsPlaces r₂ (xs ++ ys) := by
  intro dest src ha
  rcases h' dest src ha with hbefore | ⟨value, hmem, hvalue⟩
  · rcases h dest src hbefore with hold | ⟨value, hmem, hvalue⟩
    · exact .inl hold
    · exact .inr ⟨value, List.mem_append_left _ hmem, hvalue⟩
  · exact .inr ⟨value, List.mem_append_right _ hmem, hvalue⟩

theorem mono (h : r.AddsPlaces r₁ xs) (hsub : ∀ a ∈ xs, a ∈ ys) : r.AddsPlaces r₁ ys := by
  intro dest src ha
  rcases h dest src ha with hold | ⟨value, hmem, hvalue⟩
  · exact .inl hold
  · exact .inr ⟨value, hsub _ hmem, hvalue⟩

theorem assign (r : Record) (dest : TypedPlace) {source : Source} (h : ∀ src, source ≠ .place src) :
    r.AddsPlaces (r.assign dest source) xs := by
  intro dest' src ha
  rcases List.mem_append.mp ha with hold | hnew
  · exact .inl hold
  · cases List.mem_singleton.mp hnew
    exact absurd rfl (h src)

theorem reads (r : Record) (places : List Place) : r.AddsPlaces (r.reads places) xs := by
  refine of_eq ?_
  induction places generalizing r with
  | nil => rfl
  | cons p rest ih => exact ih (r.access p .read .deep)

end Record.AddsPlaces

section addsPlaces

variable {s : Scene} {r r' : Record}

theorem Transferred.addsPlaces {target : TypedPlace} {value : Expr}
    (h : Transferred s target value r r') : r.AddsPlaces r' [(target.place, value)] := by
  intro dest src ha
  cases h with
  | skip _ => exact .inl ha
  | pass hshape hplace _ _ =>
      rcases Record.mem_assignments_pass.mp ha with hold | ⟨-, hnew⟩
      · exact .inl hold
      · cases hnew
        exact .inr ⟨value, List.mem_singleton.mpr rfl, hshape, hplace⟩

theorem Recorded.addsPlaces {dest : Option TypedPlace} {e : Expr} (h : Recorded s dest e r r') :
    r.AddsPlaces r' e.assignments := by
  induction h with
  | lit | deref _ _ | var _ _ => exact .of_eq rfl
  | assign hplace _ _ hpass ih =>
      refine (Record.AddsPlaces.trans ih hpass.addsPlaces).mono ?_
      simp +contextual [Expr.assignments, hplace, or_imp]
  | binary hop _ _ ihl ihr =>
      rw [Expr.assignments]
      · exact ihl.trans ihr
      · exact hop
  | borrow _ _ _ => exact .assign _ _ (by simp)
  | unary _ _ _ ih =>
      simp only [Expr.assignments]
      exact ih
  | call _ hargs =>
      obtain ⟨⟨places, rfl⟩, -⟩ := Expr.recordArgs_reads hargs
      exact .reads _ places
  | @callTo dest id span callee args ty r r₁ found target htarget hargs =>
      obtain ⟨⟨places, rfl⟩, -⟩ := Expr.recordArgs_reads hargs
      have hreads : r.AddsPlaces (r.reads places) [] := .reads r places
      exact hreads.trans (.assign _ target (by simp))

theorem StmtRecorded.addsPlaces {stmt : Stmt} (h : StmtRecorded s stmt r r') :
    r.AddsPlaces r' stmt.assignments := by
  cases h with
  | decl _ | label => exact .of_eq rfl
  | init hinit hplace _ hvalue hpass =>
      have hall : r.AddsPlaces r' _ := Record.AddsPlaces.trans hvalue.addsPlaces hpass.addsPlaces
      refine hall.mono ?_
      simp +contextual [Stmt.assignments, hinit, hplace, or_imp]
  | expr h => exact h.addsPlaces

theorem StmtsRecorded.addsPlaces {stmts : List Stmt} (h : StmtsRecorded s stmts r r') :
    r.AddsPlaces r' (stmts.flatMap Stmt.assignments) := by
  induction h with
  | nil => exact .of_eq rfl
  | cons hfirst _ ih =>
      rw [List.flatMap_cons]
      exact hfirst.addsPlaces.trans ih

theorem StepRecorded.addsPlaces {step : Step} (h : StepRecorded s step r r') :
    r.AddsPlaces r' step.assignments := by
  cases h with
  | start | finish | jump | leave => exact .of_eq rfl
  | instructions h => exact h.addsPlaces
  | branch h | loop h => exact h.addsPlaces
  | ret h | retRef h _ _ _ _ =>
      simp only [Step.assignments, Option.toList_some, List.flatMap_singleton]
      exact h.addsPlaces

end addsPlaces

/-! ### What an assigned reference takes along -/

/-- The assignments recorded at a node that has `value` assigned to `dest`: of the value itself if
it names a place, and of every address and every call that operators compute it from. -/
structure Facts.Takes (facts : Facts) (n : NodeId) (here : NodeFacts) (dest : TypedPlace)
    (value : Expr) : Prop where
  place : ∀ src : TypedPlace, src.Typed facts.declared → value.IsPlace src.place →
    dest.ty.isRef = src.ty.isRef ∧ (dest.ty.isRef → ⟨dest, .place src⟩ ∈ here.assignments)
  address : ∀ id span operand, .unary id span .addrOf operand ∈ value.operands →
    ∃ l loan, facts.loans[l]? = some loan ∧ loan.origin = n ∧ loan.expr = id ∧
      operand.place? = .ok (some loan.place) ∧ ⟨dest, .borrow l⟩ ∈ here.assignments
  call : ∀ id span callee args ty, .call id span callee args ty ∈ value.operands → dest.ty.isRef →
    ∃ found, ⟨dest, .call found⟩ ∈ here.assignments ∧ ∀ arg ∈ args, ∀ src : TypedPlace,
      src.Typed facts.declared → arg.place? = .ok (some src.place) → src.ty.isRef → src ∈ found

theorem Stored.takes {facts : Facts} {n : NodeId} {place : Place} {value : Expr} {r : Record}
    (h : Stored ⟨facts.declared, n⟩ place value r) (hloans : r.loans <+: facts.loans) :
    ∃ dest : TypedPlace, dest.place = place ∧ dest.Typed facts.declared ∧
      facts.Takes n r.facts dest value := by
  obtain ⟨dest, r₁, r₂, r₃, hplace, hdest, hvalue, hpass, hext⟩ := h
  have htyped : ∀ d ∈ some dest, d.Typed facts.declared := by
    rintro d ⟨⟩
    exact hdest
  have hafter : r₂.Extends r := (hpass.acts hdest).extends.trans hext
  refine ⟨dest, hplace, hdest, ?_, ?_, ?_⟩
  · intro src hsrc hwhole
    cases hpass with
    | skip hshape => simp [hwhole.shape] at hshape
    | @pass src' kind _ hplace' hsrc' hkind =>
        rw [hwhole.place_eq] at hplace'
        cases (hsrc.unique hsrc' (by simpa using hplace'))
        refine ⟨TransferKind.isRef_eq_of_classify hkind, fun href => ?_⟩
        exact hext.assignments.subset (Record.mem_assignments_pass.mpr (.inr ⟨href, rfl⟩))
  · intro id span operand haddr
    obtain ⟨r₄, r₅, hrec, hlater⟩ := hvalue.operand htyped haddr
    have hkept := hlater.trans hafter
    cases hrec with
    | unary hne _ _ => exact absurd rfl hne
    | borrow hlent _ _ =>
        exact ⟨_, _, getElem?_of_prefix (hkept.loans.trans hloans)
          (Record.getElem?_loans_borrow ..), rfl, rfl, hlent,
          hkept.assignments.subset (Record.mem_assignments_borrow ..)⟩
  · intro id span callee args ty hcall href
    obtain ⟨r₄, r₅, hrec, hlater⟩ := hvalue.operand htyped hcall
    have hkept := hlater.trans hafter
    cases hrec with
    | call hnone _ => simp [href] at hnone
    | @callTo _ _ _ _ _ _ _ _ found target htarget hargs =>
        obtain ⟨hmem, -⟩ := Option.filter_eq_some_iff.mp htarget
        cases hmem
        refine ⟨found, hkept.assignments.subset
          (List.mem_append_right _ (List.mem_singleton.mpr rfl)), ?_⟩
        intro arg harg src hsrc hplace hsrcRef
        exact Expr.mem_of_recordArgs hargs harg hplace hsrc hsrcRef

/-- The record of one of the nodes. -/
theorem NodesRecorded.recorded_at {d : Declared} {n : NodeId} {nodes : List Node}
    {regions : Regions} {loans : List Loan} {facts : Facts}
    (h : NodesRecorded d n nodes regions loans facts) {m : Nat} {node : Node}
    (hm : nodes[m]? = some node) :
    ∃ r r', StepRecorded ⟨d, n + m⟩ node.step r r' ∧ r.facts = .empty ∧
      facts.nodes[m]? = some r'.facts ∧ r'.loans <+: facts.loans := by
  induction h generalizing m with
  | nil => simp at hm
  | @cons n first rest regions loans r facts hfirst hrest ih =>
      cases m with
      | zero =>
          cases hm
          exact ⟨_, r, hfirst, rfl, rfl, hrest.extends.2.2.1⟩
      | succ m =>
          obtain ⟨r₁, r₂, hrec, hempty, hfacts, hloans⟩ := ih hm
          rw [Nat.succ_add_eq_add_succ] at hrec
          exact ⟨r₁, r₂, hrec, hempty, hfacts, hloans⟩

theorem Function.recorded_at {f : Function} {facts : Facts} (h : f.facts = .ok facts) {n : NodeId}
    {node : Node} (hnode : f.nodes[n]? = some node) :
    ∃ r r', StepRecorded ⟨facts.declared, n⟩ node.step r r' ∧ r.facts = .empty ∧
      facts.nodes[n]? = some r'.facts ∧ r'.loans <+: facts.loans := by
  obtain ⟨registry, -, hrecorded⟩ := Function.facts_recorded h
  have hat := hrecorded.recorded_at hnode
  rwa [Nat.zero_add, ← hrecorded.extends.1] at hat

/-- Every assignment is recorded, with all that flows into a reference through operators. -/
theorem Function.exists_takes {f : Function} {facts : Facts} (h : f.facts = .ok facts) {n : NodeId}
    {place : Place} {value : Expr} (ha : (place, value) ∈ f.assignmentsAt n) :
    ∃ here dest, facts.nodes[n]? = some here ∧ dest.place = place ∧ dest.Typed facts.declared ∧
      facts.Takes n here dest value := by
  cases hnode : f.nodes[n]? with
  | none => simp [assignmentsAt, hnode] at ha
  | some node =>
      obtain ⟨r, r', hrec, -, hhere, hloans⟩ := Function.recorded_at h hnode
      simp only [assignmentsAt, hnode, Option.map_some, Option.getD_some] at ha
      obtain ⟨dest, hplace, hdest, htakes⟩ := (hrec.stored ha).takes hloans
      exact ⟨r'.facts, dest, hhere, hplace, hdest, htakes⟩

/-- A place is recorded as assigned to a reference exactly if it is the whole value of an
assignment. -/
theorem Function.mem_assignments_iff {f : Function} {facts : Facts} (h : f.facts = .ok facts)
    {n : NodeId} {here : NodeFacts} (hhere : facts.nodes[n]? = some here) {dest src : TypedPlace} :
    ⟨dest, .place src⟩ ∈ here.assignments ↔
      dest.Typed facts.declared ∧ dest.ty.isRef ∧ src.Typed facts.declared ∧
        ∃ value, (dest.place, value) ∈ f.assignmentsAt n ∧ value.IsPlace src.place := by
  constructor
  · intro ha
    have hhereTyped := (Function.facts_typed h).nodes here (List.mem_of_getElem? hhere)
    have htyped := hhereTyped.assignments _ ha
    refine ⟨htyped.dest, htyped.isRef, htyped.source, ?_⟩
    have hlt := lt_length_of_getElem? hhere
    rw [Facts.length_nodes h] at hlt
    have hnode := List.getElem?_eq_getElem hlt
    obtain ⟨r, r', hrec, hempty, hsame, -⟩ := Function.recorded_at h hnode
    rw [hhere] at hsame
    cases hsame
    rcases hrec.addsPlaces dest src ha with hold | hnew
    · simp [hempty, NodeFacts.empty] at hold
    · simpa [assignmentsAt, hnode] using hnew
  · rintro ⟨hdest, href, hsrc, value, hvalue, hwhole⟩
    obtain ⟨here', dest', hhere', hplace, hdest', htakes⟩ := Function.exists_takes h hvalue
    rw [hhere] at hhere'
    cases hhere'
    cases hdest.unique hdest' hplace.symm
    exact (htakes.place src hsrc hwhole).2 href

end LoanScope
