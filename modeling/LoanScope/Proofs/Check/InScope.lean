import LoanScope.Check
import LoanScope.Proofs.Facts.Loans
import LoanScope.Proofs.InScope.Intersection
import LoanScope.Proofs.InScope.Queued

/-! The loans in scope that a check finds, in terms of its loans, regions and accesses: under union
the loans that some walk carries to a node, under intersection those that every walk does. -/

namespace LoanScope.Check

/-- The node overwrites a place that the lent place is reached from. -/
def Kills (c : Check) (n : NodeId) (loan : Loan) : Prop :=
  c.config.killLoansOnOverwrite ∧
    ∃ node, c.facts.nodes[n]? = some node ∧
      ∃ a ∈ node.accesses, a.isShallowWrite ∧ a.place.isPrefixOf loan.place

/-- Along the walk `w`, the loan is made at position `i`; every later node up to position `k` is in
its region, and none before position `k` kills it. -/
structure Carries (c : Check) (loan : Loan) (w : Nat → NodeId) (i k : Nat) : Prop where
  lt : i < k
  origin : w i = loan.origin
  inRegion : ∀ j, i < j → j ≤ k → w j ∈ c.regions.points loan.region
  notKilled : ∀ j, i < j → j < k → ¬ c.Kills (w j) loan

/-- The loans found in scope on entry to a node. -/
def scopeAt (c : Check) (n : NodeId) : IdSet := (c.inScope[n]?).getD ∅

variable {c : Check}

/-! ### The flow of a check -/

theorem exists_loan_of_makes (hfiled : c.facts.Filed) {n : NodeId} {l : LoanId}
    (h : l ∈ c.makes n) :
    ∃ loan, c.facts.loans[l]? = some loan := by
  rw [makes, IdSet.mem_ofList, hfiled.listed] at h
  obtain ⟨loan, hloan, -⟩ := h
  exact ⟨loan, hloan⟩

theorem flow_bounded (hfiled : c.facts.Filed) : c.flow.Bounded := by
  intro n l hl
  obtain ⟨loan, hloan⟩ := exists_loan_of_makes hfiled hl
  exact lt_length_of_getElem? hloan

section loan

variable {l : LoanId} {loan : Loan} {n : NodeId}

theorem mem_makes (hfiled : c.facts.Filed) (hloan : c.facts.loans[l]? = some loan) :
    l ∈ c.makes n ↔ loan.origin = n := by
  rw [makes, IdSet.mem_ofList, hfiled.listed]
  simp [hloan]

/-- The loans killed at a node, by their numbers. -/
theorem mem_kills_iff {id : LoanId} :
    id ∈ c.kills n ↔ ∃ loan ∈ c.facts.loans, loan.id = id ∧ c.Kills n loan := by
  have hwritten : ∀ other : Loan,
      ((((c.facts.nodes[n]?.map NodeFacts.accesses).getD []).filter Access.isShallowWrite).any
        (·.place.isPrefixOf other.place)) = true ↔
      ∃ node, c.facts.nodes[n]? = some node ∧
        ∃ a ∈ node.accesses, a.isShallowWrite ∧ a.place.isPrefixOf other.place := by
    intro other
    cases c.facts.nodes[n]? <;> simp
  rw [kills]
  split
  · rename_i hon
    simp only [IdSet.mem_ofList, List.mem_map, List.mem_filter, hwritten, Kills, hon, true_and]
    constructor
    · rintro ⟨other, ⟨hmem, hkill⟩, hid⟩
      exact ⟨other, hmem, hid, hkill⟩
    · rintro ⟨other, hmem, hid, hkill⟩
      exact ⟨other, ⟨hmem, hkill⟩, hid⟩
  · rename_i hoff
    simp [Kills, hoff]

theorem mem_kills (hfiled : c.facts.Filed) (hloan : c.facts.loans[l]? = some loan) :
    l ∈ c.kills n ↔ c.Kills n loan := by
  rw [mem_kills_iff]
  constructor
  · rintro ⟨other, hmem, hid, hkill⟩
    obtain ⟨i, hi⟩ := List.mem_iff_getElem?.mp hmem
    obtain rfl : i = l := (hfiled.numbered i other hi).symm.trans hid
    rw [hloan] at hi
    cases hi
    exact hkill
  · intro hkill
    exact ⟨loan, List.mem_of_getElem? hloan, hfiled.numbered l loan hloan, hkill⟩

theorem holds_iff (hloan : c.facts.loans[l]? = some loan) :
    c.holds l n = true ↔ n ∈ c.regions.points loan.region := by
  simp [holds, hloan]

theorem flow_carries_iff (hfiled : c.facts.Filed) (hloan : c.facts.loans[l]? = some loan)
    {w : Nat → NodeId} {i k : Nat} : c.flow.Carries l w i k ↔ c.Carries loan w i k := by
  constructor
  · intro h
    refine ⟨h.lt, ((mem_makes hfiled hloan).mp h.made).symm, ?_, ?_⟩
    · intro j hij hjk
      exact (holds_iff hloan).mp (h.held j hij hjk)
    · intro j hij hjk hkill
      exact h.kept j hij hjk ((mem_kills hfiled hloan).mpr hkill)
  · intro h
    refine ⟨h.lt, (mem_makes hfiled hloan).mpr h.origin.symm, ?_, ?_⟩
    · intro j hij hjk
      exact (holds_iff hloan).mpr (h.inRegion j hij hjk)
    · intro j hij hjk hkill
      exact h.notKilled j hij hjk ((mem_kills hfiled hloan).mp hkill)

end loan

/-! ### What the search leaves -/

/-- A search that ends leaves the entry sets of its last state. -/
theorem borrowCheck_of_drains (hfiled : c.facts.Filed) (hdrains : c.flow.Drains) :
    ∃ d k, c.borrowCheck = some d ∧ (c.flow.after k).queue = [] ∧
      ∀ n, d.scopeAt n = (c.flow.after k).entryOf n := by
  have hbound := flow_bounded hfiled
  have hsettle := (Flow.settle_eq_some_iff hbound).mpr ⟨hdrains, rfl⟩
  refine ⟨_, c.flow.stateBound, by rw [borrowCheck, hsettle]; rfl,
    Flow.drained_of_drains hbound hdrains, ?_⟩
  intro n
  have hsize : (c.flow.after c.flow.stateBound).entry.size = c.function.graph.size :=
    (c.flow.orderly_after _).entry_size
  rw [scopeAt, Flow.Sweep.entryOf, Graph.nodes, List.getElem?_map]
  rcases Nat.lt_or_ge n c.function.graph.size with hlt | hge
  · simp [hlt, Flow.Sweep.entryOf]
  · have hout : ¬ n < (c.flow.after c.flow.stateBound).entry.size := by
      rw [hsize]
      exact Nat.not_lt.mpr hge
    simp [Nat.not_lt.mpr hge, Array.getD, hout]

/-- Under union the search ends. -/
theorem exists_borrowCheck_union (hfiled : c.facts.Filed) (hunion : c.config.joinPolicy = .union) :
    ∃ d, c.borrowCheck = some d := by
  obtain ⟨d, k, hd, -, -⟩ :=
    borrowCheck_of_drains hfiled (Flow.drains_union hunion (flow_bounded hfiled))
  exact ⟨d, hd⟩

theorem drains_of_borrowCheck {d : Check} (h : c.borrowCheck = some d) : c.flow.Drains := by
  cases hsettle : c.flow.settle with
  | none => simp [borrowCheck, hsettle] at h
  | some s =>
      obtain ⟨hafter, hnil⟩ := Flow.run_eq_some_iff.mp hsettle
      exact ⟨_, hafter ▸ hnil⟩

/-- The search changes nothing but the loans in scope, of which it leaves a set for each node. -/
theorem facts_of_borrowCheck {d : Check} (h : c.borrowCheck = some d) :
    d.facts = c.facts ∧ d.inScope.length = c.function.graph.size := by
  cases hsettle : c.flow.settle with
  | none => simp [borrowCheck, hsettle] at h
  | some s =>
      simp only [borrowCheck, hsettle] at h
      cases h
      exact ⟨rfl, by simp [Graph.nodes]⟩

/-- Under union, a loan that some walk from a reachable origin carries to a node is found in scope
there, and no other. -/
theorem mem_scopeAt_union (hfiled : c.facts.Filed) (hunion : c.config.joinPolicy = .union)
    {d : Check} (hd : c.borrowCheck = some d) {n : NodeId} {l : LoanId} :
    l ∈ d.scopeAt n ↔
      ∃ loan, c.facts.loans[l]? = some loan ∧
        c.function.graph.Reaches c.function.graph.start loan.origin ∧
        ∃ w k, c.function.graph.IsWalk w k ∧ w k = n ∧ c.Carries loan w 0 k := by
  obtain ⟨d', k, hd', hnil, hscope⟩ := borrowCheck_of_drains hfiled (drains_of_borrowCheck hd)
  rw [hd] at hd'
  cases hd'
  rw [hscope n, Flow.mem_entryOf_union hunion hnil]
  constructor
  · rintro ⟨w, k, hwalk, hreach, hlast, hcarries⟩
    obtain ⟨loan, hloan⟩ := exists_loan_of_makes hfiled hcarries.made
    have hc := (flow_carries_iff hfiled hloan).mp hcarries
    exact ⟨loan, hloan, hc.origin ▸ hreach, w, k, hwalk, hlast, hc⟩
  · rintro ⟨loan, hloan, hreach, w, k, hwalk, hlast, hc⟩
    exact ⟨w, k, hwalk, hc.origin.symm ▸ hreach, hlast, (flow_carries_iff hfiled hloan).mpr hc⟩

/-- A check of one loan that is made at node `1` and holds at nodes `0` to `3`. -/
def ofOneLoan (policy : JoinPolicy) (graph : Graph) : Check where
  function :=
    { name := "f", file := 0, params := [], returnTy := none, nodes := [], graph
      body := .empty, names := .ofList [] }
  config := ⟨policy, true, false⟩
  facts :=
    { declared := .empty, regions := .initial
      loans := [⟨0, 1, .shared, .builtin .int false, .var ⟨0, "x"⟩, .builtin .int false,
        1, 0, .detached 0⟩]
      nodes := [.empty, ⟨[], [0], [], [], [], []⟩,
        ⟨[⟨.var ⟨1, "y"⟩, .write, .shallow⟩], [], [], [], [], []⟩] }
  regions :=
    ⟨[⟨0, .universal, "static", none, ∅⟩, ⟨1, .existential, "1", none, .ofList [0, 1, 2, 3]⟩]⟩
  constraints := []
  passes := 0
  inScope := []
  visits := 0

theorem filed_ofOneLoan (policy : JoinPolicy) (graph : Graph) :
    (ofOneLoan policy graph).facts.Filed := by
  refine ⟨?_, ?_⟩
  · intro l loan hloan
    cases l with
    | zero =>
        cases hloan
        rfl
    | succ l => simp [ofOneLoan] at hloan
  · intro n l
    rcases n with _ | _ | _ | n <;> cases l <;> simp [ofOneLoan, NodeFacts.empty]

/-- Under union, the loans in scope on entry to a node are those that some walk from a reachable
origin carries there. They are found by a search that marks the nodes in its queue, and that comes
to an end. -/
theorem borrowCheck_union (c : Check) (hfiled : c.facts.Filed)
    (hunion : c.config.joinPolicy = .union) :
    ∃ d, c.borrowCheck = some d ∧ d.inScope.length = c.function.graph.size ∧
      (∀ s ∈ d.inScope, s.toList.Pairwise (· < ·)) ∧
      (∃ k, (Flow.MarkedSweep.after c.flow k).sweep.queue = [] ∧
        ∀ n, d.scopeAt n = (Flow.MarkedSweep.after c.flow k).sweep.entryOf n) ∧
      ∀ n l, l ∈ d.scopeAt n ↔
        ∃ loan, c.facts.loans[l]? = some loan ∧
          c.function.graph.Reaches c.function.graph.start loan.origin ∧
          ∃ w k, c.function.graph.IsWalk w k ∧ w k = n ∧ c.Carries loan w 0 k := by
  have hdrains := Flow.drains_union hunion (flow_bounded hfiled)
  obtain ⟨d, k, hcheck, hnil, hscope⟩ := borrowCheck_of_drains hfiled hdrains
  refine ⟨d, hcheck, (facts_of_borrowCheck hcheck).2, fun s _ => s.ascending, ⟨k, ?_⟩, ?_⟩
  · rw [(c.flow.tracks_after k).sweep]
    exact ⟨hnil, hscope⟩
  · intro n l
    exact mem_scopeAt_union hfiled hunion hcheck

/-- Three nodes in a ring. -/
def ring : Graph :=
  ⟨[.jump, .instructions, .instructions], 0, [(0, 1), (1, 2), (2, 0)], by decide,
    by decide, by decide⟩

/-- Node `1` lends, node `2` writes elsewhere, and the loan comes back to the start. -/
theorem borrowCheck_union_ring :
    (ofOneLoan .union ring).facts.Filed ∧ (ofOneLoan .union ring).config.joinPolicy = .union ∧
      ∃ d, (ofOneLoan .union ring).borrowCheck = some d ∧ 0 ∈ d.scopeAt 0 := by
  have hfiled := filed_ofOneLoan .union ring
  obtain ⟨d, hcheck, -, -, -, hscope⟩ := borrowCheck_union _ hfiled rfl
  refine ⟨hfiled, rfl, d, hcheck, (hscope 0 0).mpr ⟨_, rfl, .single (by decide), ?_⟩⟩
  refine ⟨fun i => (i + 1) % 3, 2, by unfold Graph.IsWalk; decide, rfl, by decide, rfl, ?_, ?_⟩
  · intro j hj hle
    obtain rfl | rfl : j = 1 ∨ j = 2 := by omega
    · decide
    · decide
  · intro j hj hlt
    obtain rfl : j = 1 := by omega
    rintro ⟨-, node, hnode, a, ha, -, hplace⟩
    cases hnode
    rw [List.mem_singleton.mp ha] at hplace
    exact absurd hplace (by decide)

/-- Under intersection, if nothing leads back to the start, the loans in scope on entry to a
reachable node are those that every walk from the start carries there. A node out of reach has none,
and has no say in what its successors get. -/
theorem borrowCheck_intersection (c : Check) (hfiled : c.facts.Filed)
    (hinter : c.config.joinPolicy = .intersection)
    (hstart : ∀ m, (m, c.function.graph.start) ∉ c.function.graph.edges) :
    ∃ d, c.borrowCheck = some d ∧ d.inScope.length = c.function.graph.size ∧
      (∀ n, c.function.graph.Reaches c.function.graph.start n → ∀ l, l ∈ d.scopeAt n ↔
        ∃ loan, c.facts.loans[l]? = some loan ∧
          ∀ w k, c.function.graph.IsWalk w k → w 0 = c.function.graph.start → w k = n →
            ∃ i, c.Carries loan w i k) ∧
      (∀ n, ¬ c.function.graph.Reaches c.function.graph.start n → d.scopeAt n = ∅) ∧
      ∀ n, c.function.graph.Reaches c.function.graph.start n → n ≠ c.function.graph.start →
        ∀ l loan, c.facts.loans[l]? = some loan →
          (l ∈ d.scopeAt n ↔ n ∈ c.regions.points loan.region ∧
            ∀ p, c.function.graph.Reaches c.function.graph.start p →
              (p, n) ∈ c.function.graph.edges →
                l ∈ d.scopeAt p ∧ ¬ c.Kills p loan ∨ loan.origin = p) := by
  have hsealed : c.flow.Sealed := Flow.sealed_of_no_pred hstart
  have hdrains := Flow.drains_intersection hinter hsealed (flow_bounded hfiled)
  obtain ⟨d, k, hcheck, hnil, hscope⟩ := borrowCheck_of_drains hfiled hdrains
  refine ⟨d, hcheck, (facts_of_borrowCheck hcheck).2, ?_, ?_, ?_⟩
  · intro n hreach l
    rw [hscope n, Flow.mem_entryOf_intersection hinter hsealed hnil hreach]
    constructor
    · intro hmust
      -- The start reaches the node by some walk, and that walk names the loan.
      obtain ⟨w, k, hwalk, hfirst, hlast⟩ := Graph.reaches_iff_walk.mp hreach
      obtain ⟨i, hi⟩ := hmust w k hwalk hfirst hlast
      obtain ⟨loan, hloan⟩ := exists_loan_of_makes hfiled hi.made
      refine ⟨loan, hloan, fun w k hwalk hfirst hlast => ?_⟩
      obtain ⟨i, hi⟩ := hmust w k hwalk hfirst hlast
      exact ⟨i, (flow_carries_iff hfiled hloan).mp hi⟩
    · rintro ⟨loan, hloan, hall⟩ w k hwalk hfirst hlast
      obtain ⟨i, hi⟩ := hall w k hwalk hfirst hlast
      exact ⟨i, (flow_carries_iff hfiled hloan).mpr hi⟩
  · intro n hn
    rw [hscope n]
    exact (c.flow.orderly_after k).entry_empty n hn
  · intro n hreach hn l loan hloan
    have hheld : c.flow.holds l n = true ↔ n ∈ c.regions.points loan.region := holds_iff hloan
    have hkilled : ∀ p, l ∈ c.flow.kills p ↔ c.Kills p loan := fun p => mem_kills hfiled hloan
    have hmade : ∀ p, l ∈ c.flow.makes p ↔ loan.origin = p := fun p => mem_makes hfiled hloan
    have hpred := Flow.mem_entryOf_iff_pred hinter hnil hreach hn (l := l)
    simp only [hheld, hkilled, hmade, ← hscope] at hpred
    exact hpred

/-- A loop of two nodes between a way in and a way out. -/
def lasso : Graph :=
  ⟨[.jump, .instructions, .instructions, .jump], 0, [(0, 1), (1, 2), (2, 1), (2, 3)],
    by decide, by decide,
    by decide⟩

/-- Every walk carries the loan from `1` to `2`, but it does not come to `1` on the first round. -/
theorem borrowCheck_intersection_lasso :
    (ofOneLoan .intersection lasso).facts.Filed ∧
      (ofOneLoan .intersection lasso).config.joinPolicy = .intersection ∧
      (∀ m, (m, lasso.start) ∉ lasso.edges) ∧
      ∃ d, (ofOneLoan .intersection lasso).borrowCheck = some d ∧ 0 ∈ d.scopeAt 2 ∧
        0 ∉ d.scopeAt 1 := by
  have hfiled := filed_ofOneLoan .intersection lasso
  have hstart : ∀ m, (m, lasso.start) ∉ lasso.edges := by simp [lasso]
  obtain ⟨d, hcheck, -, hwalks, -, hpred⟩ := borrowCheck_intersection _ hfiled rfl hstart
  have hone : lasso.Reaches 0 1 := .single (by decide)
  have htwo : lasso.Reaches 0 2 := hone.tail (by decide)
  refine ⟨hfiled, rfl, hstart, d, hcheck, ?_, ?_⟩
  · refine (hpred 2 htwo (by decide) 0 _ rfl).mpr ⟨by decide, ?_⟩
    intro p _ hedge
    have hp : p = 1 := by simpa [ofOneLoan, lasso] using hedge
    exact .inr hp.symm
  · intro hmem
    obtain ⟨loan, hloan, hall⟩ := (hwalks 1 hone 0).mp hmem
    cases hloan
    obtain ⟨i, hlt, horigin, -, -⟩ := hall id 1 (by unfold Graph.IsWalk; decide) rfl rfl
    obtain rfl : i = 0 := by omega
    exact absurd horigin (by decide)

end LoanScope.Check
