import LoanScope.Proofs.Check.InScope
import LoanScope.Proofs.Fixture.Inferred

/-! When the search for loans in scope ends. Under union it always does. Under intersection it does
if no loan can come back to the start, but in general a search may come back to a state that it was
in before, and then goes on forever. -/

namespace LoanScope

/-- A search ends unless it comes back to a state in which nodes are left to visit. -/
theorem Flow.drains_iff_no_return {f : Flow} (hf : f.Bounded) :
    f.Drains ↔
      ∀ i j, i < j → (f.after i).Alike (f.after j) → (f.after i).queue = [] := by
  constructor
  · intro hdrains i j hij halike
    by_contra hne
    exact Flow.not_drains_of_alike hij halike hne hdrains
  · intro hno
    obtain ⟨i, j, hij, -, halike⟩ := Flow.exists_alike hf
    exact ⟨i, hno i j hij halike⟩

/-- Nothing that the start reaches leads back to it, or no loan holds there. -/
theorem Check.flow_sealed {c : Check}
    (h : (∀ m, c.function.graph.Reaches c.function.graph.start m →
        (m, c.function.graph.start) ∉ c.function.graph.edges) ∨
      ∀ loan ∈ c.facts.loans, c.function.graph.start ∉ c.regions.points loan.region) :
    c.flow.Sealed := by
  intro m l hreach hedge hheld
  rcases h with hback | hregion
  · exact hback m hreach hedge
  · cases hloan : c.facts.loans[l]? with
    | none => simp [flow, holds, hloan] at hheld
    | some loan => exact hregion loan (List.mem_of_getElem? hloan) ((holds_iff hloan).mp hheld)

/-- The search for loans in scope gives a result exactly when its queue is empty at some time, and
that is when it never comes back to a state with nodes left to visit. Under union it gives one, and
also under intersection if nothing reachable leads back to the start or no loan holds there. -/
theorem Check.borrowCheck_isSome_iff (c : Check) (hfiled : c.facts.Filed) :
    (c.borrowCheck.isSome ↔ ∃ k, (c.flow.after k).queue = []) ∧
    ((∃ k, (c.flow.after k).queue = []) ↔
      ∀ i j, i < j → (c.flow.after i).Alike (c.flow.after j) → (c.flow.after i).queue = []) ∧
    (c.config.joinPolicy = .union ∨
        (∀ m, c.function.graph.Reaches c.function.graph.start m →
          (m, c.function.graph.start) ∉ c.function.graph.edges) ∨
        (∀ loan ∈ c.facts.loans, c.function.graph.start ∉ c.regions.points loan.region) →
      ∃ k, (c.flow.after k).queue = []) := by
  have hbound := flow_bounded hfiled
  refine ⟨?_, Flow.drains_iff_no_return hbound, ?_⟩
  · constructor
    · intro hsome
      obtain ⟨d, hd⟩ := Option.isSome_iff_exists.mp hsome
      exact drains_of_borrowCheck hd
    · intro hdrains
      obtain ⟨d, k, hd, -⟩ := borrowCheck_of_drains hfiled hdrains
      simp [hd]
  · rintro (hunion | hclear)
    · exact Flow.drains_union hunion hbound
    · cases hpolicy : c.config.joinPolicy with
      | union => exact Flow.drains_union hpolicy hbound
      | intersection => exact Flow.drains_intersection hpolicy (flow_sealed hclear) hbound

/-- The loan of the ring comes back to the start, and the search ends all the same under union. -/
theorem Check.borrowCheck_isSome_ring :
    (ofOneLoan .union ring).facts.Filed ∧ (ofOneLoan .union ring).borrowCheck.isSome := by
  have hfiled := filed_ofOneLoan .union ring
  obtain ⟨hresult, -, hends⟩ := borrowCheck_isSome_iff _ hfiled
  exact ⟨hfiled, hresult.mpr (hends (.inl rfl))⟩

/-! ### A search that does not end -/

namespace Fixture

/-- A search that is in a state with nodes left to visit and comes back to it gives no report. -/
theorem check_of_return {f : Fixture} {file : FileId} {config : Config} {i j : Nat} (hij : i < j)
    (h : (f.inferred? file config).any fun c =>
      (c.flow.after i).queue ≠ [] ∧ (c.flow.after i).queue = (c.flow.after j).queue ∧
        (c.flow.after i).exit = (c.flow.after j).exit) :
    f.check file config = .error (.check .unsettled) := by
  obtain ⟨c, hc, hreturn⟩ := (Option.any_eq_true _ _).mp h
  simp only [decide_eq_true_eq] at hreturn
  obtain ⟨hne, hqueue, hexit⟩ := hreturn
  have hnever : ¬ c.flow.Drains :=
    Flow.not_drains_of_alike hij ⟨hqueue, fun n => by rw [Flow.Sweep.exitOf, hexit]; rfl⟩ hne
  rw [check_of_inferred? hc]
  cases hcheck : c.borrowCheck with
  | none => rfl
  | some d => exact absurd (Check.drains_of_borrowCheck hcheck) hnever

/-- A node at which `p` is live. -/
def seesawNode (id : UInt32) (body : Body) (succ : List UInt32) : Node :=
  { id, body, succ, liveIn := ["p"], liveOut := [], span := none }

/-- Node `1` lends `x`, and everything leads back to the start. What the start passes on decides
what comes back to it one round later, the other way round. Nodes `5` to `7` are out of reach. -/
def seesaw : Fixture where
  name := "seesaw"
  params := [⟨"x", .builtin .int⟩]
  returnTy := none
  start := 0
  nodes :=
    [seesawNode 0 .jump [1, 4],
      seesawNode 1
        (.instructions [.decl "p" (.pointer (.builtin .int)) (some (.addrOf (.var "x")))]) [2],
      seesawNode 2 .jump [0, 3],
      seesawNode 3 .jump [4],
      seesawNode 4 .jump [2],
      seesawNode 5 .jump [],
      seesawNode 6 .jump [],
      seesawNode 7 .jump []]

/-- Under intersection, the search comes back after ten visits to a state that it was in before. -/
theorem check_seesaw : seesaw.check 0 ⟨.intersection, true, true⟩ = .error (.check .unsettled) := by
  have hsorted : seesaw.sortedNodes = seesaw.nodes := List.mergeSort_of_pairwise (by decide)
  refine check_of_return (i := 6) (j := 16) (by decide) ?_
  simp only [inferred?, toFunction, plan, edges, names, hsorted]
  decide +kernel

end Fixture

end LoanScope
