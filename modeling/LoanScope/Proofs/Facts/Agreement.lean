import LoanScope.Proofs.Facts.Typing

/-! The lists of facts agree with each other. The assignments of a node show again which loans it
makes and which references it moves, in the same order; and every loan is assigned once, to a
reference of the type that it was made for, where its place is accessed. -/

namespace LoanScope

/-! ### Assignments read back -/

/-- The loan whose address is assigned. -/
def Assignment.loan? (a : Assignment) : Option LoanId :=
  match a.source with
  | .borrow l => some l
  | _ => none

/-- The assignment as a transfer from one place to another. -/
def Assignment.transfer? (a : Assignment) : Option Transfer :=
  match a.source with
  | .place src => some ⟨a.dest, src⟩
  | _ => none

/-- The places that a source names. -/
def Source.places : Source → List TypedPlace
  | borrow _ => []
  | place src => [src]
  | call args => args

/-- The access that lends the place of a loan. -/
def Loan.access (l : Loan) : Access := ⟨l.place, if l.kind = .mutable then .write else .read, .deep⟩

theorem Assignment.loan?_eq_some {a : Assignment} {l : LoanId} :
    a.loan? = some l ↔ a.source = .borrow l := by
  rw [loan?]
  cases a.source <;> simp

/-- A value that passes is recorded as a copy, or as an assignment and a move. -/
theorem Record.pass_eq (r : Record) {kind : TransferKind} {dest src : TypedPlace}
    (h : TransferKind.classify dest.ty src.ty = .ok kind) :
    (dest.ty.isRef = false ∧ src.ty.isRef = false ∧
        r.pass kind dest src = r.transfer .copy ⟨dest, src⟩) ∨
      (dest.ty.isRef = true ∧ src.ty.isRef = true ∧
        r.pass kind dest src = (r.assign dest (.place src)).transfer .move ⟨dest, src⟩) := by
  rw [TransferKind.classify] at h
  cases hdest : dest.ty.isRef <;> cases hsrc : src.ty.isRef <;>
    simp [Ty.isCopyable, hdest, hsrc] at h
  · subst h
    exact .inl ⟨rfl, rfl, by simp [pass, hdest]⟩
  · subst h
    exact .inr ⟨rfl, rfl, by simp [pass, hdest]⟩

/-! ### The facts of a node -/

/-- An assignment of an address goes with its loan: the loan was made for the type of the
destination, and its place is accessed. -/
def Assignment.Receives (loans : List Loan) (accesses : List Access) (a : Assignment) (l : LoanId) :
    Prop :=
  ∃ loan, loans[l]? = some loan ∧ loan.declaredTy = a.dest.ty ∧
    loan.declaredTy.kind? = some loan.kind ∧ loan.access ∈ accesses

theorem Assignment.Receives.mono {loans loans' : List Loan} {accesses accesses' : List Access}
    {a : Assignment} {l : LoanId} (h : a.Receives loans accesses l) (hloans : loans <+: loans')
    (haccesses : accesses <+: accesses') : a.Receives loans' accesses' l := by
  obtain ⟨loan, hloan, hty, hkind, haccess⟩ := h
  exact ⟨loan, getElem?_of_prefix hloans hloan, hty, hkind, haccesses.subset haccess⟩

/-- The facts of a node agree with each other, and with the loans of the function. -/
structure NodeFacts.Agrees (d : Declared) (loans : List Loan) (here : NodeFacts) : Prop where
  loans_eq : here.assignments.filterMap Assignment.loan? = here.loans
  moves_eq : here.assignments.filterMap Assignment.transfer? = here.moves
  receives : ∀ a ∈ here.assignments, ∀ l, a.source = .borrow l → a.Receives loans here.accesses l
  sources : ∀ a ∈ here.assignments, ∀ p ∈ a.source.places, p.ty.isRef
  copies : ∀ t ∈ here.copies, (t.dest.Typed d ∧ t.dest.ty.isRef = false) ∧
    t.src.Typed d ∧ t.src.ty.isRef = false
  returns : ∀ p ∈ here.returns, p.ty.isRef

namespace NodeFacts.Agrees

variable {d : Declared} {loans : List Loan} {here : NodeFacts}

theorem empty (d : Declared) (loans : List Loan) : NodeFacts.empty.Agrees d loans := by
  constructor <;> simp [NodeFacts.empty]

theorem mono (h : here.Agrees d loans) {loans' : List Loan} (hloans : loans <+: loans') :
    here.Agrees d loans' :=
  { h with receives := fun a ha l hl => (h.receives a ha l hl).mono hloans List.prefix_rfl }

end NodeFacts.Agrees

theorem Record.agrees_borrow {s : Scene} {r : Record} (h : r.facts.Agrees s.declared r.loans)
    (id : ExprId) (span : FileSpan) (lent : TypedPlace) {dest : TypedPlace} {kind : BorrowKind}
    (hkind : dest.ty.kind? = some kind) :
    (r.borrow s.node id span lent dest kind).facts.Agrees s.declared
      (r.borrow s.node id span lent dest kind).loans := by
  have hassignments : (r.borrow s.node id span lent dest kind).facts.assignments =
      r.facts.assignments ++ [⟨dest, .borrow r.loans.length⟩] := rfl
  refine ⟨?_, ?_, ?_, ?_, h.copies, h.returns⟩
  · rw [hassignments, r.facts_loans_borrow, List.filterMap_append, h.loans_eq]
    rfl
  · rw [hassignments, List.filterMap_append, h.moves_eq]
    exact List.append_nil _
  · rw [hassignments, List.forall_mem_append, List.forall_mem_singleton]
    constructor
    · intro a ha l hl
      exact (h.receives a ha l hl).mono (List.prefix_append _ _) (List.prefix_append _ _)
    · rintro l ⟨⟩
      exact ⟨_, r.getElem?_loans_borrow s.node id span lent dest kind, rfl, hkind,
        List.mem_append_right _ (List.mem_singleton.mpr rfl)⟩
  · rw [hassignments, List.forall_mem_append, List.forall_mem_singleton]
    exact ⟨h.sources, by simp [Source.places]⟩

/-- Other assignments than that of an address say nothing of loans. -/
theorem Record.agrees_assign {d : Declared} {r : Record} (h : r.facts.Agrees d r.loans)
    {dest : TypedPlace} {source : Source} {moves : List Transfer}
    (hsource : ∀ l, source ≠ .borrow l) (hplaces : ∀ p ∈ source.places, p.ty.isRef)
    (hmoves : moves = r.facts.moves ++ [⟨dest, source⟩].filterMap Assignment.transfer?) :
    NodeFacts.Agrees d r.loans
      { r.facts with assignments := r.facts.assignments ++ [⟨dest, source⟩], moves := moves } := by
  have hnone : Assignment.loan? ⟨dest, source⟩ = none := by
    cases source with
    | borrow l => exact absurd rfl (hsource l)
    | place src => rfl
    | call args => rfl
  refine ⟨?_, ?_, ?_, ?_, h.copies, h.returns⟩
  · simpa [hnone] using h.loans_eq
  · rw [hmoves, List.filterMap_append, h.moves_eq]
  · rw [List.forall_mem_append, List.forall_mem_singleton]
    exact ⟨h.receives, fun l hl => absurd hl (hsource l)⟩
  · rw [List.forall_mem_append, List.forall_mem_singleton]
    exact ⟨h.sources, hplaces⟩

theorem Record.agrees_act {s : Scene} {r r' : Record} (hact : Act s r r')
    (h : r.facts.Agrees s.declared r.loans) : r'.facts.Agrees s.declared r'.loans := by
  cases hact with
  | access place mode reach =>
      exact { h with receives := fun a ha l hl =>
        (h.receives a ha l hl).mono List.prefix_rfl (List.prefix_append _ _) }
  | borrow id span _ _ hkind => exact agrees_borrow h id span _ hkind
  | @pass kind dest src hdest hsrc hkind =>
      rcases r.pass_eq hkind with ⟨hdestTy, hsrcTy, heq⟩ | ⟨-, hsrcTy, heq⟩
      · rw [heq]
        refine { h with copies := List.forall_mem_append.mpr ⟨h.copies, ?_⟩ }
        exact List.forall_mem_singleton.mpr ⟨⟨hdest, hdestTy⟩, hsrc, hsrcTy⟩
      · rw [heq]
        exact agrees_assign h (by simp) (by simpa [Source.places] using hsrcTy) rfl
  | call hdest href hargs =>
      exact agrees_assign h (by simp) (fun p hp => (hargs p hp).2) (List.append_nil _).symm
  | ret hp href =>
      exact { h with returns :=
        List.forall_mem_append.mpr ⟨h.returns, List.forall_mem_singleton.mpr href⟩ }

/-! ### The loans of all nodes -/

/-- The loans listed at a node are numbered on from those made before. -/
structure Record.Counts (before : Nat) (r : Record) : Prop where
  length_eq : r.loans.length = before + r.facts.loans.length
  listed : r.facts.loans = List.range' before r.facts.loans.length

theorem Record.counts_act {s : Scene} {before : Nat} {r r' : Record} (hact : Act s r r')
    (h : r.Counts before) : r'.Counts before := by
  cases hact with
  | access place mode reach => exact ⟨h.length_eq, h.listed⟩
  | @borrow id span lent dest kind hlent hdest hkind =>
      constructor
      · rw [r.length_loans_borrow, r.facts_loans_borrow, List.length_append, h.length_eq]
        rfl
      · rw [r.facts_loans_borrow, List.length_append, List.length_singleton, List.range'_1_concat,
          ← h.listed, h.length_eq]
  | pass hdest hsrc hkind =>
      rcases r.pass_eq hkind with ⟨-, -, heq⟩ | ⟨-, -, heq⟩
      · rw [heq]
        exact ⟨h.length_eq, h.listed⟩
      · rw [heq]
        exact ⟨h.length_eq, h.listed⟩
  | call hdest href hargs => exact ⟨h.length_eq, h.listed⟩
  | ret hp href => exact ⟨h.length_eq, h.listed⟩

theorem NodesRecorded.agrees {d : Declared} {n : NodeId} {nodes : List Node} {regions : Regions}
    {loans : List Loan} {facts : Facts} (h : NodesRecorded d n nodes regions loans facts) :
    (∃ count, facts.loans.length = loans.length + count ∧
      facts.nodes.flatMap NodeFacts.loans = List.range' loans.length count) ∧
    ∀ here ∈ facts.nodes, here.Agrees d facts.loans := by
  induction h with
  | nil => exact ⟨⟨0, rfl, rfl⟩, by simp⟩
  | @cons n node rest regions loans r facts hfirst hrest ih =>
      obtain ⟨⟨count, hlength, hlisted⟩, hagrees⟩ := ih
      have hcounts : r.Counts loans.length :=
        hfirst.acts.invariant (fun _ _ => Record.counts_act) ⟨rfl, rfl⟩
      have hhere : r.facts.Agrees d r.loans :=
        hfirst.acts.invariant (P := fun r => r.facts.Agrees d r.loans)
          (fun _ _ => Record.agrees_act)
          (.empty d loans)
      constructor
      · refine ⟨r.facts.loans.length + count, ?_, ?_⟩
        · rw [hlength, hcounts.length_eq, Nat.add_assoc]
        · rw [List.flatMap_cons, hlisted, hcounts.length_eq, ← List.range'_append_1,
            ← hcounts.listed]
      · rw [List.forall_mem_cons]
        exact ⟨hhere.mono hrest.extends.2.2.1, hagrees⟩

namespace Facts

variable {f : Function} {facts : Facts}

/-- The loans of the nodes in order are all loans in order. -/
theorem flatMap_loans (h : f.facts = .ok facts) :
    facts.nodes.flatMap NodeFacts.loans = List.range facts.loans.length := by
  obtain ⟨registry, -, hrecorded⟩ := Function.facts_recorded h
  obtain ⟨⟨count, hlength, hlisted⟩, -⟩ := hrecorded.agrees
  rw [hlisted, hlength, List.range_eq_range']
  simp

theorem agrees (h : f.facts = .ok facts) :
    ∀ here ∈ facts.nodes, here.Agrees facts.declared facts.loans := by
  obtain ⟨registry, -, hrecorded⟩ := Function.facts_recorded h
  rw [hrecorded.extends.1]
  exact hrecorded.agrees.2

/-- The address of each loan is assigned once. -/
theorem exists_filter_source (h : f.facts = .ok facts) {l : LoanId} (hl : l < facts.loans.length) :
    ∃ a, (facts.nodes.flatMap NodeFacts.assignments).filter (·.source = .borrow l) = [a] := by
  have hloans : (facts.nodes.flatMap NodeFacts.assignments).filterMap Assignment.loan? =
      List.range facts.loans.length := by
    rw [← flatMap_loans h, List.filterMap_flatMap]
    exact List.flatMap_congr fun here hhere => (agrees h here hhere).loans_eq
  rw [← List.length_eq_one_iff, ← List.countP_eq_length_filter]
  calc (facts.nodes.flatMap NodeFacts.assignments).countP (·.source = .borrow l)
      = (facts.nodes.flatMap NodeFacts.assignments).countP (·.loan? == some l) := by
        apply List.countP_congr
        intro a _
        simp [Assignment.loan?_eq_some]
    _ = (List.range facts.loans.length).count l := by rw [← hloans, List.count_filterMap]
    _ = 1 := List.count_eq_one_of_mem List.nodup_range (List.mem_range.mpr hl)

end Facts

/-! ### Facts as a whole -/

/-- A place of the type recorded with it, which is a reference and has a region. -/
structure TypedPlace.IsReference (d : Declared) (p : TypedPlace) : Prop where
  typed : p.place.typeIn d = .ok p.ty
  isRef : p.ty.isRef
  exists_region : ∃ r, p.ty.region? = some r

/-- What is copied are builtin values. All else that is recorded with a type are references, and the
moves are the assignments from places. -/
structure NodeFacts.Consistent (d : Declared) (here : NodeFacts) : Prop where
  assignments : ∀ a ∈ here.assignments, ∀ p ∈ a.dest :: a.source.places, p.IsReference d
  returns : ∀ p ∈ here.returns, p.IsReference d
  copies : ∀ t ∈ here.copies, ∀ p ∈ [t.dest, t.src],
    p.place.typeIn d = .ok p.ty ∧ ∃ kind isConst, p.ty = .builtin kind isConst
  moves : ∀ t ∈ here.moves, ∀ p ∈ [t.dest, t.src], p.IsReference d
  moves_eq : here.moves = here.assignments.filterMap Assignment.transfer?

/-- A loan and what the facts say of it elsewhere: it is listed at its origin only, its address is
assigned once in the whole function, at the origin, to a reference of its declared type, and its
place is accessed there. -/
structure Loan.Consistent (facts : Facts) (i : LoanId) (loan : Loan) : Prop where
  id_eq : loan.id = i
  listed : ∀ n here, facts.nodes[n]? = some here → (i ∈ here.loans ↔ loan.origin = n)
  kind_eq : loan.declaredTy.kind? = some loan.kind
  typed : loan.place.typeIn facts.declared = .ok loan.placeTy
  assigned : ∃ here a, facts.nodes[loan.origin]? = some here ∧ a ∈ here.assignments ∧
    a.dest.ty = loan.declaredTy ∧
    (facts.nodes.flatMap NodeFacts.assignments).filter (·.source = .borrow i) = [a]
  accessed : ∃ here mode, facts.nodes[loan.origin]? = some here ∧
    ⟨loan.place, mode, .deep⟩ ∈ here.accesses ∧ (mode = .write ↔ loan.kind = .mutable)

structure Facts.Consistent (facts : Facts) : Prop where
  loans_eq : facts.nodes.flatMap NodeFacts.loans = List.range facts.loans.length
  loans : ∀ i (loan : Loan), facts.loans[i]? = some loan → loan.Consistent facts i
  nodes : ∀ here ∈ facts.nodes, here.Consistent facts.declared

/-- References that are typed have regions, since all declared references have. -/
theorem Facts.Typed.isReference {facts : Facts} (h : facts.Typed) {p : TypedPlace}
    (hp : p.Typed facts.declared) (href : p.ty.isRef) : p.IsReference facts.declared :=
  ⟨hp, href, (Place.placed_of_typeIn h.placed hp).exists_region href⟩

theorem Ty.exists_builtin {t : Ty} (h : t.isRef = false) :
    ∃ kind isConst, t = .builtin kind isConst := by
  cases t with
  | builtin kind isConst => exact ⟨kind, isConst, rfl⟩
  | ref _ _ _ _ _ => cases h

theorem Source.Typed.of_mem_places {d : Declared} {source : Source} (h : source.Typed d)
    {p : TypedPlace} (hp : p ∈ source.places) : p.Typed d := by
  cases source with
  | borrow l => cases hp
  | place src =>
      rw [List.mem_singleton.mp hp]
      exact h
  | call args => exact h p hp

theorem Assignment.exists_of_mem_transfers {as : List Assignment} {t : Transfer}
    (h : t ∈ as.filterMap Assignment.transfer?) : ⟨t.dest, .place t.src⟩ ∈ as := by
  obtain ⟨⟨dest, source⟩, ha, htransfer⟩ := List.mem_filterMap.mp h
  cases source with
  | borrow l => cases htransfer
  | place src =>
      cases htransfer
      exact ha
  | call args => cases htransfer

namespace Facts

variable {f : Function} {facts : Facts}

theorem node_consistent (h : f.facts = .ok facts) {here : NodeFacts} (hhere : here ∈ facts.nodes) :
    here.Consistent facts.declared := by
  have htyped := Function.facts_typed h
  have hagrees := agrees h here hhere
  have hassignments : ∀ a ∈ here.assignments, ∀ p ∈ a.dest :: a.source.places,
      p.IsReference facts.declared := by
    intro a ha
    have hatyped := (htyped.nodes here hhere).assignments a ha
    rw [List.forall_mem_cons]
    constructor
    · exact htyped.isReference hatyped.dest hatyped.isRef
    · intro p hp
      exact htyped.isReference (hatyped.source.of_mem_places hp) (hagrees.sources a ha p hp)
  refine ⟨hassignments, ?_, ?_, ?_, hagrees.moves_eq.symm⟩
  · intro p hp
    exact htyped.isReference ((htyped.nodes here hhere).returns p hp) (hagrees.returns p hp)
  · intro t ht
    obtain ⟨⟨hdest, hdestTy⟩, hsrc, hsrcTy⟩ := hagrees.copies t ht
    rw [List.forall_mem_cons, List.forall_mem_singleton]
    exact ⟨⟨hdest, Ty.exists_builtin hdestTy⟩, hsrc, Ty.exists_builtin hsrcTy⟩
  · intro t ht
    rw [← hagrees.moves_eq] at ht
    exact hassignments _ (Assignment.exists_of_mem_transfers ht)

theorem loan_consistent (h : f.facts = .ok facts) {i : LoanId} {loan : Loan}
    (hloan : facts.loans[i]? = some loan) : loan.Consistent facts i := by
  have hfiled := Function.facts_filed h
  obtain ⟨here, hhere, hlisted⟩ := hfiled.exists_origin hloan
  have hagrees := agrees h here (List.mem_of_getElem? hhere)
  -- The node that lists the loan assigns its address, and the assignment knows the loan.
  obtain ⟨a, ha, hsource⟩ : ∃ a ∈ here.assignments, a.source = .borrow i := by
    rw [← hagrees.loans_eq] at hlisted
    obtain ⟨a, ha, hloan?⟩ := List.mem_filterMap.mp hlisted
    exact ⟨a, ha, Assignment.loan?_eq_some.mp hloan?⟩
  obtain ⟨loan', hloan', hty, hkind, haccess⟩ := hagrees.receives a ha i hsource
  rw [hloan] at hloan'
  cases hloan'
  refine ⟨hfiled.numbered i loan hloan, ?_, hkind, ?_, ?_, ?_⟩
  · intro n there hthere
    have hiff := hfiled.listed n i
    simp only [hthere, hloan, Option.map_some, Option.getD_some, Option.some.injEq,
      exists_eq_left'] at hiff
    exact hiff
  · exact ((Function.facts_typed h).loans loan (List.mem_of_getElem? hloan)).place
  · obtain ⟨b, hb⟩ := exists_filter_source h (lt_length_of_getElem? hloan)
    have hmem : a ∈ (facts.nodes.flatMap NodeFacts.assignments).filter (·.source = .borrow i) := by
      rw [List.mem_filter]
      exact ⟨List.mem_flatMap.mpr ⟨here, List.mem_of_getElem? hhere, ha⟩, by simpa using hsource⟩
    rw [hb, List.mem_singleton] at hmem
    exact ⟨here, a, hhere, ha, hty.symm, hmem ▸ hb⟩
  · refine ⟨here, _, hhere, haccess, ?_⟩
    cases loan.kind <;> simp

end Facts

end LoanScope
