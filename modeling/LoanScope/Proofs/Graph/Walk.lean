import LoanScope.Graph
import Mathlib.Data.List.Nodup
import Mathlib.Logic.Relation

/-! Walks of a graph, and the nodes that they reach. A walk is its nodes by position together with
its length, so that every initial part of a walk is the same nodes with a smaller length. -/

namespace LoanScope.Graph

/-- The walk `w 0 → w 1 → ... → w k`; what `w` is beyond `k` does not matter. -/
def IsWalk (g : Graph) (w : Nat → NodeId) (k : Nat) : Prop :=
  ∀ i < k, (w i, w (i + 1)) ∈ g.edges

/-- Some walk, possibly without a step, leads from the first node to the second. -/
def Reaches (g : Graph) (m n : NodeId) : Prop :=
  Relation.ReflTransGen (fun a b => (a, b) ∈ g.edges) m n

namespace IsWalk

variable {g : Graph} {w : Nat → NodeId} {k : Nat}

theorem mono (h : g.IsWalk w k) {j : Nat} (hj : j ≤ k) : g.IsWalk w j :=
  fun i hi => h i (Nat.lt_of_lt_of_le hi hj)

/-- A walk goes on along an edge that leaves its last node. -/
theorem snoc (h : g.IsWalk w k) {n : NodeId} (hn : (w k, n) ∈ g.edges) :
    g.IsWalk (fun i => if i ≤ k then w i else n) (k + 1) := by
  intro i hi
  have hik : i ≤ k := Nat.le_of_lt_succ hi
  by_cases hlast : i = k
  · subst hlast
    simpa [Nat.not_succ_le_self] using hn
  · have hlt : i < k := Nat.lt_of_le_of_ne hik hlast
    simpa [hik, Nat.succ_le_of_lt hlt] using h i hlt

theorem reaches_from (h : g.IsWalk w k) {i : Nat} (hi : i ≤ k) : g.Reaches (w i) (w k) := by
  induction k with
  | zero =>
      rw [Nat.le_zero.mp hi]
      exact .refl
  | succ k ih =>
      rcases Nat.lt_or_eq_of_le hi with hlt | rfl
      · exact (ih (h.mono (Nat.le_succ k)) (Nat.le_of_lt_succ hlt)).tail (h k (Nat.lt_succ_self k))
      · exact .refl

end IsWalk

theorem reaches_iff_walk {g : Graph} {m n : NodeId} :
    g.Reaches m n ↔ ∃ w k, g.IsWalk w k ∧ w 0 = m ∧ w k = n := by
  constructor
  · intro h
    induction h with
    | refl => exact ⟨fun _ => m, 0, fun i hi => absurd hi (Nat.not_lt_zero i), rfl, rfl⟩
    | tail _ hedge ih =>
        obtain ⟨w, k, hw, hfirst, hlast⟩ := ih
        exact ⟨_, k + 1, hw.snoc (hlast ▸ hedge), by simpa using hfirst,
          if_neg (Nat.not_succ_le_self k)⟩
  · rintro ⟨w, k, hw, rfl, rfl⟩
    exact hw.reaches_from (Nat.zero_le k)

theorem Reaches.lt_size {g : Graph} {m n : NodeId} (h : g.Reaches m n) (hm : m < g.size) :
    n < g.size := by
  cases h with
  | refl => exact hm
  | tail _ hedge => exact (g.edges_lt _ hedge).2

theorem succ_lt_size {g : Graph} {m n : NodeId} (h : n ∈ g.succ m) : n < g.size :=
  (g.edges_lt _ (mem_succ.mp h)).2

theorem nodup_succ (g : Graph) (n : NodeId) : (g.succ n).Nodup := by
  refine List.Nodup.filterMap ?_ g.edges_nodup
  rintro ⟨a, b⟩ ⟨c, d⟩ m hab hcd
  simp only [Option.mem_def, Option.ite_none_right_eq_some, Option.some.injEq] at hab hcd
  obtain ⟨rfl, rfl⟩ := hab
  obtain ⟨rfl, rfl⟩ := hcd
  rfl

end LoanScope.Graph
