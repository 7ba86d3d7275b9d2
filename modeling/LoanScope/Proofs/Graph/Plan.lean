import LoanScope.Graph

/-! Finished graphs have the nodes, the start and the edges of their plans, and what is wrong with a
plan is told in order: its start, then the first of its edges that leads nowhere. -/

namespace LoanScope

/-- Whether an edge has an end that is none of the first `count` nodes. -/
def Edge.leaves (count : Nat) (e : Edge) : Bool := !(e.1 < count && e.2 < count)

namespace Graph.Plan

theorem foldl_addNode (kinds : List NodeKind) (p : Plan) :
    (kinds.foldl addNode p).kinds = p.kinds ++ kinds ∧ (kinds.foldl addNode p).edges = p.edges := by
  induction kinds generalizing p with
  | nil => simp
  | cons kind rest ih =>
      obtain ⟨hkinds, hedges⟩ := ih (p.addNode kind)
      rw [List.foldl_cons, hkinds, hedges]
      exact ⟨by simp [addNode], rfl⟩

theorem mem_edges_addEdge {p : Plan} {e a : Edge} :
    a ∈ (p.addEdge e).edges ↔ a ∈ p.edges ∨ a = e := by
  rw [addEdge]
  split
  · rename_i hmem
    constructor
    · exact .inl
    · rintro (ha | rfl)
      · exact ha
      · exact hmem
  · simp

theorem kinds_addEdge (p : Plan) (e : Edge) : (p.addEdge e).kinds = p.kinds := by
  rw [addEdge]
  split <;> rfl

theorem foldl_addEdge (edges : List Edge) (p : Plan) :
    (edges.foldl addEdge p).kinds = p.kinds ∧
      ∀ a, a ∈ (edges.foldl addEdge p).edges ↔ a ∈ p.edges ∨ a ∈ edges := by
  induction edges generalizing p with
  | nil => simp
  | cons e rest ih =>
      obtain ⟨hkinds, hedges⟩ := ih (p.addEdge e)
      rw [List.foldl_cons]
      refine ⟨hkinds.trans (p.kinds_addEdge e), ?_⟩
      intro a
      rw [hedges, mem_edges_addEdge, List.mem_cons, or_assoc]

/-- Leaving out repeats does not change which edge is the first of a kind. -/
theorem find?_foldl_addEdge (q : Edge → Bool) (edges : List Edge) (p : Plan) :
    (edges.foldl addEdge p).edges.find? q = (p.edges ++ edges).find? q := by
  induction edges generalizing p with
  | nil => simp
  | cons e rest ih =>
      rw [List.foldl_cons, ih, addEdge]
      split
      · rename_i hmem
        rw [List.find?_append, List.find?_append, List.find?_cons]
        cases hfound : p.edges.find? q with
        | some a => simp
        | none => simp [List.find?_eq_none.mp hfound e hmem]
      · simp

theorem build_eq_ok {p : Plan} {g : Graph} (h : p.build = .ok g) :
    g.kinds = p.kinds ∧ p.start? = some g.start ∧ g.edges = p.edges := by
  rw [build] at h
  split at h
  · cases h
  · rename_i start hstart
    split at h
    · split at h
      · cases h
      · cases h
        exact ⟨rfl, hstart, rfl⟩
    · cases h

theorem build_eq_error {p : Plan} {start : NodeId} (hstart : p.start? = some start)
    {e : GraphError} :
    p.build = .error e ↔
      p.kinds.length ≤ start ∧ e = .invalidStart start ∨
        start < p.kinds.length ∧
          ∃ edge, p.edges.find? (Edge.leaves p.kinds.length) = some edge ∧
            e = .invalidEdge edge := by
  have hleaves : (fun e => !p.inside e) = Edge.leaves p.kinds.length := rfl
  rw [build]
  split
  · rename_i hnone
    simp [hnone] at hstart
  · rename_i other hother
    obtain rfl : other = start := Option.some.inj (hother.symm.trans hstart)
    by_cases hlt : other < p.kinds.length
    · rw [dif_pos hlt]
      split
      · rename_i edge hedge
        rw [hleaves] at hedge
        simp [hlt, Nat.not_le.mpr hlt, hedge, eq_comm]
      · rename_i hnone
        rw [hleaves] at hnone
        simp [hlt, Nat.not_le.mpr hlt, hnone]
    · simp [hlt, Nat.not_lt.mp hlt, eq_comm]

theorem build_of_start?_eq_none {p : Plan} (h : p.start? = none) :
    p.build = .error .missingStart := by
  rw [build]
  split
  · rfl
  · rename_i start hstart
    cases h.symm.trans hstart

theorem exists_build_eq_ok {p : Plan} {start : NodeId} (hstart : p.start? = some start) :
    (∃ g, p.build = .ok g) ↔
      start < p.kinds.length ∧ p.edges.find? (Edge.leaves p.kinds.length) = none := by
  cases hbuild : p.build with
  | error e =>
      rcases (build_eq_error hstart).mp hbuild with ⟨hle, -⟩ | ⟨-, edge, hedge, -⟩
      · simp [Nat.not_lt.mpr hle]
      · simp [hedge]
  | ok g =>
      have hno : ∀ e, p.build ≠ .error e := by simp [hbuild]
      have hlt : start < p.kinds.length :=
        Nat.lt_of_not_le fun hle => hno _ ((build_eq_error hstart).mpr (.inl ⟨hle, rfl⟩))
      refine iff_of_true ⟨g, rfl⟩ ⟨hlt, ?_⟩
      refine Option.eq_none_iff_forall_ne_some.mpr fun edge hedge => ?_
      exact hno _ ((build_eq_error hstart).mpr (.inr ⟨hlt, edge, hedge, rfl⟩))

end Graph.Plan

end LoanScope
