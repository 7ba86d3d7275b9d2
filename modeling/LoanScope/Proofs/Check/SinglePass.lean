import LoanScope.Proofs.Check.InScope
import LoanScope.Proofs.Graph.DepthFirst
import Mathlib.Data.Set.Card

/-! Graphs without cycles are done in one pass. The queue starts with the nodes in reverse
postorder, and as long as all edges lead forward, what a visit wants to queue is queued already. So
each node is visited once, whatever the loans are and however they are joined. -/

namespace LoanScope

namespace Graph

/-- No node that the start reaches lies on a cycle. -/
def Acyclic (g : Graph) : Prop :=
  ∀ n, g.Reaches g.start n → ¬ Relation.TransGen (fun a b => (a, b) ∈ g.edges) n n

theorem Forward.drop {g : Graph} {l : List NodeId} (h : g.Forward l) (k : Nat) :
    g.Forward (l.drop k) := by
  induction k generalizing l with
  | zero => exact h
  | succ k ih =>
      cases l with
      | nil => trivial
      | cons n rest => exact ih h.2

/-- Without cycles, the successors of a node stand behind it in the reverse postorder. -/
theorem Acyclic.succ_subset {g : Graph} (h : g.Acyclic) {k : Nat} {n : NodeId} {rest : List NodeId}
    (hdrop : g.reversePostorder.drop k = n :: rest) : ∀ m ∈ g.succ n, m ∈ rest := by
  intro m hm
  have hedge : (n, m) ∈ g.edges := mem_succ.mp hm
  have hreach : g.Reaches g.start n := by
    apply mem_reversePostorder.mp
    apply List.mem_of_mem_drop
    rw [hdrop]
    exact List.mem_cons_self
  have hforward := g.forward_reversePostorder.drop k
  rw [hdrop] at hforward
  rcases hforward.1 m hedge with hlater | hback
  · exact hlater
  · exact absurd (Relation.TransGen.head' hedge hback) (h n hreach)

theorem ncard_reaches (g : Graph) :
    {n | g.Reaches g.start n}.ncard = g.reversePostorder.length := by
  have hset : {n | g.Reaches g.start n} = (g.reversePostorder.toFinset : Set NodeId) := by
    ext n
    simp [mem_reversePostorder]
  rw [hset, Set.ncard_coe_finset, List.toFinset_card_of_nodup g.nodup_reversePostorder]

end Graph

namespace Flow

/-! ### The nodes that are visited -/

/-- The nodes taken off the queue in the first `k` visits, in order. -/
def popped (f : Flow) (k : Nat) : List NodeId :=
  (List.range k).filterMap fun i => (f.after i).queue.head?

@[simp] theorem visits_visit {f : Flow} {s : Sweep} {n : NodeId} {rest : List NodeId} :
    (f.visit s n rest).visits = s.visits + 1 := by
  simp only [visit]
  split <;> rfl

/-- A visit queues nothing if all successors are queued. -/
theorem queue_visit_of_subset {f : Flow} {s : Sweep} {n : NodeId} {rest : List NodeId}
    (h : ∀ m ∈ f.graph.succ n, m ∈ rest) : (f.visit s n rest).queue = rest := by
  have hnone : (f.graph.succ n).filter (· ∉ rest) = [] := by
    apply List.filter_eq_nil_iff.mpr
    intro m hm
    simp [h m hm]
  rw [queue_visit, hnone, List.append_nil, ite_self]

/-- There are more states than nodes, so one visit for each node is within the bound. -/
theorem size_le_stateBound (f : Flow) : f.graph.size ≤ f.stateBound := by
  have hsize : 0 < f.graph.size := Nat.zero_lt_of_lt f.graph.start_lt
  calc
    f.graph.size ≤ (f.graph.size + 1) ^ f.graph.size := (Nat.lt_pow_self (by omega)).le
    _ ≤ f.stateBound := Nat.le_mul_of_pos_right _ (Nat.pow_pos (Nat.succ_pos _))

theorem length_reversePostorder_le (f : Flow) : f.graph.reversePostorder.length ≤ f.stateBound :=
  f.orderly_start.queue_length_le.trans f.size_le_stateBound

section acyclic

variable {f : Flow} (h : f.graph.Acyclic)
include h

/-- A visit takes the first node off the queue and does nothing else to it. -/
theorem queue_after (k : Nat) : (f.after k).queue = f.graph.reversePostorder.drop k := by
  induction k with
  | zero => rfl
  | succ k ih =>
      rw [after_succ, ← List.tail_drop]
      cases hdrop : f.graph.reversePostorder.drop k with
      | nil =>
          rw [hdrop] at ih
          rw [step_of_nil ih, ih, List.tail_nil]
      | cons n rest =>
          rw [hdrop] at ih
          rw [step_of_cons ih, List.tail_cons]
          exact queue_visit_of_subset (h.succ_subset hdrop)

theorem queue_after_eq_nil_iff (k : Nat) :
    (f.after k).queue = [] ↔ f.graph.reversePostorder.length ≤ k := by
  rw [queue_after h, List.drop_eq_nil_iff]

/-- Every visit counts until the queue is empty. -/
theorem visits_after (k : Nat) : (f.after k).visits = min k f.graph.reversePostorder.length := by
  induction k with
  | zero => simp [after, start]
  | succ k ih =>
      rw [after_succ]
      cases hq : (f.after k).queue with
      | nil =>
          have hlen := (queue_after_eq_nil_iff h k).mp hq
          rw [step_of_nil hq, ih]
          omega
      | cons n rest =>
          have hlen : ¬ f.graph.reversePostorder.length ≤ k := by
            rw [← queue_after_eq_nil_iff h k, hq]
            simp
          rw [step_of_cons hq, visits_visit, ih]
          omega

theorem popped_eq_take (k : Nat) : f.popped k = f.graph.reversePostorder.take k := by
  induction k with
  | zero => rfl
  | succ k ih =>
      have hnext : (f.after k).queue.head? = f.graph.reversePostorder[k]? := by
        rw [queue_after h, List.head?_drop]
      have hlast : [k].filterMap (fun i => (f.after i).queue.head?) =
          f.graph.reversePostorder[k]?.toList := by
        cases hhead : f.graph.reversePostorder[k]? <;> simp [hnext, hhead]
      rw [popped, List.range_succ, List.filterMap_append, hlast, ← popped, ih, List.take_add_one]

theorem settle_eq_some : f.settle = some (f.after f.stateBound) := by
  apply run_eq_some_iff.mpr
  exact ⟨rfl, (queue_after_eq_nil_iff h _).mpr f.length_reversePostorder_le⟩

end acyclic

end Flow

namespace Check

/-- If no cycle is within reach of the start, the search for loans in scope gives a result and
visits every node that the start reaches exactly once, and no other node. The queue is empty after
that many visits and not before; a search that marks the nodes in its queue goes through the same
states. Loans, accesses, regions and the configuration may be any. -/
theorem borrowCheck_acyclic (c : Check) (hacyclic : c.function.graph.Acyclic) :
    ∃ d, c.borrowCheck = some d ∧
      d.visits = {n | c.function.graph.Reaches c.function.graph.start n}.ncard ∧
      (∀ k, (c.flow.after k).queue = [] ↔ d.visits ≤ k) ∧
      (∀ k, (Flow.MarkedSweep.after c.flow k).Tracks (c.flow.after k)) ∧
      (c.flow.popped d.visits).Nodup ∧
      ∀ n, n ∈ c.flow.popped d.visits ↔ c.function.graph.Reaches c.function.graph.start n := by
  have hflow : c.flow.graph.Acyclic := hacyclic
  have hvisits : (c.flow.after c.flow.stateBound).visits =
      c.function.graph.reversePostorder.length :=
    (Flow.visits_after hflow _).trans (Nat.min_eq_right c.flow.length_reversePostorder_le)
  have hpopped : c.flow.popped c.function.graph.reversePostorder.length =
      c.function.graph.reversePostorder :=
    (Flow.popped_eq_take hflow _).trans List.take_length
  refine ⟨_, by rw [borrowCheck, Flow.settle_eq_some hflow]; rfl, ?_, ?_, c.flow.tracks_after,
    ?_, ?_⟩
  · rw [hvisits, Graph.ncard_reaches]
  · intro k
    rw [hvisits]
    exact Flow.queue_after_eq_nil_iff hflow k
  · rw [hvisits, hpopped]
    exact c.function.graph.nodup_reversePostorder
  · intro n
    rw [hvisits, hpopped]
    exact Graph.mem_reversePostorder

/-- Two ways from the start to node `3`. Node `4` is out of reach, and leads to itself and to node
`3`. -/
def diamond : Graph :=
  ⟨[.branch, .instructions, .instructions, .jump, .loop], 0,
    [(0, 1), (0, 2), (1, 3), (2, 3), (4, 4), (4, 3)], by decide, by decide, by decide⟩

theorem acyclic_diamond : diamond.Acyclic := by
  -- Within reach of the start, every edge leads to a greater number.
  have hreach : ∀ n, diamond.Reaches 0 n → n < 4 := by
    intro n hn
    have hmem : n ∈ diamond.reversePostorder := Graph.mem_reversePostorder.mpr hn
    have hall : ∀ m ∈ diamond.reversePostorder, m < 4 := by decide
    exact hall n hmem
  have hup : ∀ e ∈ diamond.edges, e.1 < 4 → e.1 < e.2 := by decide
  intro n hn hcycle
  have hless : ∀ m, Relation.TransGen (fun a b => (a, b) ∈ diamond.edges) n m → n < m := by
    intro m hm
    induction hm with
    | single hedge => exact hup _ hedge (hreach n hn)
    | @tail a b hto hedge ih =>
        have ha : a < 4 := hreach a (hn.trans hto.to_reflTransGen)
        exact Nat.lt_trans ih (hup _ hedge ha)
  exact Nat.lt_irrefl n (hless n hcycle)

/-- Under intersection, too, the four nodes within reach are visited once each. The cycle out of
reach plays no part. -/
theorem borrowCheck_acyclic_diamond :
    diamond.Acyclic ∧
      ∃ d, (ofOneLoan .intersection diamond).borrowCheck = some d ∧ d.visits = 4 ∧
        ((ofOneLoan .intersection diamond).flow.after 3).queue ≠ [] ∧
        4 ∉ (ofOneLoan .intersection diamond).flow.popped 4 := by
  obtain ⟨d, hcheck, hvisits, hends, -, -, hnodes⟩ :=
    borrowCheck_acyclic (ofOneLoan .intersection diamond) acyclic_diamond
  have hfour : d.visits = 4 := by
    rw [hvisits]
    exact (Graph.ncard_reaches diamond).trans (by decide)
  rw [hfour] at hends hnodes
  refine ⟨acyclic_diamond, d, hcheck, hfour, ?_, ?_⟩
  · rw [ne_eq, hends 3]
    decide
  · rw [hnodes 4]
    intro hreach
    have hmem : 4 ∈ diamond.reversePostorder := Graph.mem_reversePostorder.mpr hreach
    exact absurd hmem (by decide)

end Check

end LoanScope
