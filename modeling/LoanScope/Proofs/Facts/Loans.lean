import LoanScope.Proofs.Data.List
import LoanScope.Proofs.Facts.Recording

/-! Loans are numbered in the order in which they are made, and each is listed at its origin and
nowhere else. Recording only adds: what is recorded once stays where it is. -/

namespace LoanScope

/-! ### Recording only adds -/

/-- One record continues another. -/
structure Record.Extends (r r' : Record) : Prop where
  regions : r.regions.toList <+: r'.regions.toList
  loans : r.loans <+: r'.loans
  accesses : r.facts.accesses <+: r'.facts.accesses
  assignments : r.facts.assignments <+: r'.facts.assignments

theorem Record.Extends.refl (r : Record) : r.Extends r :=
  ⟨List.prefix_rfl, List.prefix_rfl, List.prefix_rfl, List.prefix_rfl⟩

theorem Record.Extends.trans {r r₁ r₂ : Record} (h : r.Extends r₁) (h' : r₁.Extends r₂) :
    r.Extends r₂ where
  regions := h.regions.trans h'.regions
  loans := h.loans.trans h'.loans
  accesses := h.accesses.trans h'.accesses
  assignments := h.assignments.trans h'.assignments

theorem Act.extends {s : Scene} {r r' : Record} (h : Act s r r') : r.Extends r' := by
  cases h with
  | access place mode reach =>
      exact ⟨List.prefix_rfl, List.prefix_rfl, List.prefix_append _ _, List.prefix_rfl⟩
  | borrow id span _ _ _ =>
      exact ⟨List.prefix_append _ _, List.prefix_append _ _, List.prefix_append _ _,
        List.prefix_append _ _⟩
  | @pass kind dest src _ _ _ =>
      rw [Record.pass]
      constructor <;> cases kind <;> split <;> simp [Record.transfer, Record.assign]
  | call _ _ _ =>
      exact ⟨List.prefix_rfl, List.prefix_rfl, List.prefix_rfl, List.prefix_append _ _⟩
  | ret _ _ => exact ⟨List.prefix_rfl, List.prefix_rfl, List.prefix_rfl, List.prefix_rfl⟩

theorem Acts.extends {s : Scene} {r r' : Record} (h : Acts s r r') : r.Extends r' := by
  induction h with
  | refl => exact .refl r
  | tail _ hact ih => exact ih.trans hact.extends

/-- Recording nodes leaves the declared types alone, only adds regions and loans, and gives every
node its facts. -/
theorem NodesRecorded.extends {d : Declared} {n : NodeId} {nodes : List Node} {regions : Regions}
    {loans : List Loan} {facts : Facts} (h : NodesRecorded d n nodes regions loans facts) :
    facts.declared = d ∧ regions.toList <+: facts.regions.toList ∧ loans <+: facts.loans ∧
      facts.nodes.length = nodes.length := by
  induction h with
  | nil => exact ⟨rfl, List.prefix_rfl, List.prefix_rfl, rfl⟩
  | cons hfirst _ ih =>
      obtain ⟨hdeclared, hregions, hloans, hlength⟩ := ih
      have hext := hfirst.acts.extends
      exact ⟨hdeclared, hext.regions.trans hregions, hext.loans.trans hloans,
        congrArg Nat.succ hlength⟩

theorem Facts.length_nodes {f : Function} {facts : Facts} (h : f.facts = .ok facts) :
    facts.nodes.length = f.nodes.length := by
  obtain ⟨registry, -, hrecorded⟩ := Function.facts_recorded h
  exact hrecorded.extends.2.2.2

/-! ### Numbers and origins -/

/-- A loan's number is its position. -/
def Loan.Numbered (loans : List Loan) : Prop :=
  ∀ l (loan : Loan), loans[l]? = some loan → loan.id = l

/-- The loans made at a node after those made before it: each is numbered by its position, has the
node for its origin and is listed there. -/
structure Record.Filed (s : Scene) (before : List Loan) (r : Record) : Prop where
  kept : before <+: r.loans
  numbered : Loan.Numbered r.loans
  origin_eq : ∀ l (loan : Loan), before.length ≤ l → r.loans[l]? = some loan → loan.origin = s.node
  listed : ∀ l : Nat, l ∈ r.facts.loans ↔ before.length ≤ l ∧ l < r.loans.length

theorem Record.Filed.of_eq {s : Scene} {before : List Loan} {r r' : Record} (h : r.Filed s before)
    (hloans : r'.loans = r.loans) (hlisted : r'.facts.loans = r.facts.loans) :
    r'.Filed s before := by
  obtain ⟨hkept, hnumbered, horigin, hlist⟩ := h
  rw [← hloans] at hkept hnumbered horigin hlist
  rw [← hlisted] at hlist
  exact ⟨hkept, hnumbered, horigin, hlist⟩

theorem Record.facts_loans_borrow (r : Record) (node : NodeId) (id : ExprId) (span : FileSpan)
    (lent dest : TypedPlace) (kind : BorrowKind) :
    (r.borrow node id span lent dest kind).facts.loans = r.facts.loans ++ [r.loans.length] := rfl

theorem Record.length_loans_borrow (r : Record) (node : NodeId) (id : ExprId) (span : FileSpan)
    (lent dest : TypedPlace) (kind : BorrowKind) :
    (r.borrow node id span lent dest kind).loans.length = r.loans.length + 1 := by
  simp [Record.borrow, Record.access, Record.assign, Record.lend]

theorem Record.getElem?_loans_borrow (r : Record) (node : NodeId) (id : ExprId) (span : FileSpan)
    (lent dest : TypedPlace) (kind : BorrowKind) :
    (r.borrow node id span lent dest kind).loans[r.loans.length]? =
      some ⟨r.loans.length, r.regions.size, kind, dest.ty, lent.place, lent.ty, node, id, span⟩ :=
  List.getElem?_concat_length

theorem Record.lt_regions_borrow (r : Record) (node : NodeId) (id : ExprId) (span : FileSpan)
    (lent dest : TypedPlace) (kind : BorrowKind) :
    r.regions.size < (r.borrow node id span lent dest kind).regions.size := by
  simp [Record.borrow, Record.access, Record.assign, Record.lend, Regions.fresh, Regions.size]

theorem Record.mem_assignments_borrow (r : Record) (node : NodeId) (id : ExprId) (span : FileSpan)
    (lent dest : TypedPlace) (kind : BorrowKind) :
    ⟨dest, .borrow r.loans.length⟩ ∈ (r.borrow node id span lent dest kind).facts.assignments :=
  List.mem_append_right _ (List.mem_singleton.mpr rfl)

theorem Record.mem_assignments_pass {r : Record} {kind : TransferKind} {dest src : TypedPlace}
    {a : Assignment} :
    a ∈ (r.pass kind dest src).facts.assignments ↔
      a ∈ r.facts.assignments ∨ dest.ty.isRef ∧ a = ⟨dest, .place src⟩ := by
  rw [Record.pass]
  cases kind <;> cases dest.ty.isRef <;> simp [Record.transfer, Record.assign]

theorem Record.Filed.borrow {s : Scene} {before : List Loan} {r : Record} (h : r.Filed s before)
    (id : ExprId) (span : FileSpan) (lent dest : TypedPlace) (kind : BorrowKind) :
    (r.borrow s.node id span lent dest kind).Filed s before := by
  have hlen : before.length ≤ r.loans.length := h.kept.length_le
  have hsplit : ∀ l (loan : Loan), (r.borrow s.node id span lent dest kind).loans[l]? = some loan →
      r.loans[l]? = some loan ∨ l = r.loans.length ∧ loan.id = l ∧ loan.origin = s.node := by
    intro l loan hloan
    simp only [Record.borrow, Record.access, Record.assign, Record.lend,
      List.getElem?_append] at hloan
    split at hloan
    · exact .inl hloan
    · have hl : l = r.loans.length := by grind
      subst hl
      simp only [Nat.sub_self, List.getElem?_cons_zero, Option.some.injEq] at hloan
      subst hloan
      exact .inr ⟨rfl, rfl, rfl⟩
  refine ⟨h.kept.trans (List.prefix_append _ _), ?_, ?_, ?_⟩
  · intro l loan hloan
    rcases hsplit l loan hloan with hold | ⟨-, hid, -⟩
    · exact h.numbered l loan hold
    · exact hid
  · intro l loan hl hloan
    rcases hsplit l loan hloan with hold | ⟨-, -, horigin⟩
    · exact h.origin_eq l loan hl hold
    · exact horigin
  · intro l
    rw [facts_loans_borrow, length_loans_borrow, List.mem_append, List.mem_singleton, h.listed l]
    omega

theorem Record.Filed.act {s : Scene} {before : List Loan} {r r' : Record} (hact : Act s r r')
    (h : r.Filed s before) : r'.Filed s before := by
  cases hact with
  | access place mode reach => exact h.of_eq rfl rfl
  | borrow id span _ _ _ => exact h.borrow id span _ _ _
  | @pass kind dest src _ _ _ =>
      rw [Record.pass]
      apply h.of_eq <;> cases kind <;> split <;> rfl
  | call _ _ _ => exact h.of_eq rfl rfl
  | ret _ _ => exact h.of_eq rfl rfl

theorem Record.Filed.start {s : Scene} {regions : Regions} {before : List Loan}
    (h : Loan.Numbered before) :
    Record.Filed s before ⟨regions, before, .empty⟩ where
  kept := List.prefix_rfl
  numbered := h
  origin_eq := by
    intro l loan hl hloan
    exact absurd (lt_length_of_getElem? hloan) (Nat.not_lt.mpr hl)
  listed := by simp [NodeFacts.empty]

/-- The facts of a function file its loans: numbered by position, and listed at their origins
only. -/
structure Facts.Filed (facts : Facts) : Prop where
  numbered : Loan.Numbered facts.loans
  listed : ∀ n l, l ∈ (facts.nodes[n]?.map NodeFacts.loans).getD [] ↔
    ∃ loan, facts.loans[l]? = some loan ∧ loan.origin = n

/-- A loan is listed at its origin. -/
theorem Facts.Filed.exists_origin {facts : Facts} (h : facts.Filed) {l : LoanId} {loan : Loan}
    (hloan : facts.loans[l]? = some loan) :
    ∃ here, facts.nodes[loan.origin]? = some here ∧ l ∈ here.loans := by
  have hlisted := (h.listed loan.origin l).mpr ⟨loan, hloan, rfl⟩
  cases hhere : facts.nodes[loan.origin]? with
  | none => simp [hhere] at hlisted
  | some here => exact ⟨here, rfl, by simpa [hhere] using hlisted⟩

theorem StepRecorded.filed {s : Scene} {step : Step} {regions : Regions} {before : List Loan}
    {r : Record} (h : StepRecorded s step ⟨regions, before, .empty⟩ r)
    (hnum : Loan.Numbered before) :
    r.Filed s before :=
  h.acts.invariant (fun _ _ => Record.Filed.act) (.start hnum)

/-- The nodes from `n` on add loans with origins from `n` on. -/
structure Facts.FiledFrom (n : NodeId) (before : List Loan) (facts : Facts) : Prop where
  kept : before <+: facts.loans
  numbered : Loan.Numbered facts.loans
  origin_le : ∀ l (loan : Loan), before.length ≤ l → facts.loans[l]? = some loan → n ≤ loan.origin
  listed : ∀ m l, l ∈ (facts.nodes[m]?.map NodeFacts.loans).getD [] ↔
    before.length ≤ l ∧ ∃ loan, facts.loans[l]? = some loan ∧ loan.origin = n + m

theorem NodesRecorded.filedFrom {d : Declared} {n : NodeId} {nodes : List Node} {regions : Regions}
    {before : List Loan} {facts : Facts} (h : NodesRecorded d n nodes regions before facts)
    (hnum : Loan.Numbered before) : facts.FiledFrom n before := by
  induction h with
  | nil =>
      refine ⟨List.prefix_rfl, hnum, ?_, ?_⟩
      · intro l loan hl hloan
        exact absurd (lt_length_of_getElem? hloan) (Nat.not_lt.mpr hl)
      · intro m l
        constructor
        · simp
        · rintro ⟨hl, loan, hloan, -⟩
          exact absurd (lt_length_of_getElem? hloan) (Nat.not_lt.mpr hl)
  | @cons n node rest regions before r facts hfirst hrest ih =>
      have hfiled := hfirst.filed hnum
      obtain ⟨hkept, hnumbered, horigin, hlisted⟩ := ih hfiled.numbered
      have hlen : before.length ≤ r.loans.length := hfiled.kept.length_le
      -- A loan below the mark of the later nodes is one of those made so far.
      have hhere : ∀ l (loan : Loan), before.length ≤ l → l < r.loans.length →
          facts.loans[l]? = some loan → loan.origin = n := by
        intro l loan hl hlt hloan
        exact hfiled.origin_eq l loan hl (getElem?_of_lt_length hkept hlt hloan)
      refine ⟨hfiled.kept.trans hkept, hnumbered, ?_, ?_⟩
      · intro l loan hl hloan
        rcases Nat.lt_or_ge l r.loans.length with hlt | hge
        · exact Nat.le_of_eq (hhere l loan hl hlt hloan).symm
        · exact Nat.le_of_succ_le (horigin l loan hge hloan)
      · intro m l
        cases m with
        | zero =>
            simp only [List.getElem?_cons_zero, Option.map_some, Option.getD_some, hfiled.listed,
              Nat.add_zero]
            constructor
            · rintro ⟨hl, hlt⟩
              have hmade := List.getElem?_eq_getElem hlt
              exact ⟨hl, r.loans[l], getElem?_of_prefix hkept hmade, hfiled.origin_eq l _ hl hmade⟩
            · rintro ⟨hl, loan, hloan, heq⟩
              refine ⟨hl, Nat.lt_of_not_le fun hge => ?_⟩
              exact absurd heq (Nat.ne_of_gt (horigin l loan hge hloan))
        | succ m =>
            simp only [List.getElem?_cons_succ, hlisted]
            constructor
            · rintro ⟨hl, loan, hloan, heq⟩
              exact ⟨Nat.le_trans hlen hl, loan, hloan, heq.trans (Nat.succ_add_eq_add_succ n m)⟩
            · rintro ⟨hl, loan, hloan, heq⟩
              have hlater : n < loan.origin := by
                rw [heq]
                exact Nat.lt_add_of_pos_right (Nat.succ_pos m)
              refine ⟨Nat.le_of_not_lt fun hlt => ?_, loan, hloan,
                heq.trans (Nat.succ_add_eq_add_succ n m).symm⟩
              exact absurd (hhere l loan hl hlt hloan) (Nat.ne_of_gt hlater)

theorem Function.facts_filed {f : Function} {facts : Facts} (h : f.facts = .ok facts) :
    facts.Filed := by
  obtain ⟨registry, -, hrecorded⟩ := Function.facts_recorded h
  have hfrom := hrecorded.filedFrom (by simp [Loan.Numbered])
  refine ⟨hfrom.numbered, fun n l => ?_⟩
  simpa using hfrom.listed n l

end LoanScope
