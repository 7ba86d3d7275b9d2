import LoanScope.Proofs.InScope.Termination

/-! Loans in scope under union. The sets only grow, so the search ends, and it ends with the loans
that some walk carries to a node. -/

namespace LoanScope.Flow

/-- Along the walk `w`, the loan is made at position `i`, and from there on it holds wherever the
walk enters, up to position `k`, and is not killed in between. -/
structure Carries (f : Flow) (l : Nat) (w : Nat → NodeId) (i k : Nat) : Prop where
  lt : i < k
  made : l ∈ f.makes (w i)
  held : ∀ j, i < j → j ≤ k → f.holds l (w j)
  kept : ∀ j, i < j → j < k → l ∉ f.kills (w j)

namespace Carries

variable {f : Flow} {l : Nat} {w : Nat → NodeId} {i k : Nat}

theorem congr {w' : Nat → NodeId} (h : f.Carries l w i k) (heq : ∀ j ≤ k, w' j = w j) :
    f.Carries l w' i k := by
  refine ⟨h.lt, ?_, ?_, ?_⟩
  · rw [heq i h.lt.le]
    exact h.made
  · intro j hij hjk
    rw [heq j hjk]
    exact h.held j hij hjk
  · intro j hij hjk
    rw [heq j hjk.le]
    exact h.kept j hij hjk

/-- A loan made at a node enters the next node of the walk if it holds there. -/
theorem first (hmade : l ∈ f.makes (w k)) (hheld : f.holds l (w (k + 1))) :
    f.Carries l w k (k + 1) := by
  refine ⟨Nat.lt_succ_self k, hmade, ?_, ?_⟩
  · intro j hj hjk
    obtain rfl : j = k + 1 := by omega
    exact hheld
  · intro j hj hjk
    omega

theorem next (h : f.Carries l w i k) (hkept : l ∉ f.kills (w k)) (hheld : f.holds l (w (k + 1))) :
    f.Carries l w i (k + 1) := by
  refine ⟨Nat.lt_succ_of_lt h.lt, h.made, ?_, ?_⟩
  · intro j hij hjk
    rcases Nat.lt_or_eq_of_le hjk with hlt | rfl
    · exact h.held j hij (Nat.le_of_lt_succ hlt)
    · exact hheld
  · intro j hij hjk
    rcases Nat.lt_or_eq_of_le (Nat.le_of_lt_succ hjk) with hlt | rfl
    · exact h.kept j hij hlt
    · exact hkept

/-- How a loan came to the last node: it was made right before it, or it was carried to the node
before and not killed there. -/
theorem last_step (h : f.Carries l w i (k + 1)) :
    i = k ∨ f.Carries l w i k ∧ l ∉ f.kills (w k) := by
  rcases Nat.lt_or_eq_of_le (Nat.le_of_lt_succ h.lt) with hlt | heq
  · refine .inr ⟨⟨hlt, h.made, ?_, ?_⟩, h.kept k hlt (Nat.lt_succ_self k)⟩
    · intro j hij hjk
      exact h.held j hij (Nat.le_succ_of_le hjk)
    · intro j hij hjk
      exact h.kept j hij (Nat.lt_succ_of_lt hjk)
  · exact .inl heq

end Carries

/-! ### Loans that some walk carries -/

/-- Some walk from a node that the start reaches carries the loan to `n`. -/
def MayEnter (f : Flow) (l : Nat) (n : NodeId) : Prop :=
  ∃ w k, f.graph.IsWalk w k ∧ f.graph.Reaches f.graph.start (w 0) ∧ w k = n ∧ f.Carries l w 0 k

/-- Some walk carries the loan out of `n`. -/
def MayLeave (f : Flow) (l : Nat) (n : NodeId) : Prop :=
  f.graph.Reaches f.graph.start n ∧ l ∈ f.makes n ∨ f.MayEnter l n ∧ l ∉ f.kills n

theorem MayLeave.enter {f : Flow} {l : Nat} {p n : NodeId} (h : f.MayLeave l p)
    (hedge : (p, n) ∈ f.graph.edges) (hheld : f.holds l n) : f.MayEnter l n := by
  rcases h with ⟨hreach, hmade⟩ | ⟨⟨w, k, hwalk, hreach, rfl, hcarries⟩, hkept⟩
  · have hwalk : f.graph.IsWalk (fun _ => p) 0 := fun i hi => absurd hi (Nat.not_lt_zero i)
    refine ⟨_, 1, hwalk.snoc hedge, by simpa using hreach, by simp, ?_⟩
    exact Carries.first (by simpa using hmade) (by simpa using hheld)
  · have hafter : ¬ k + 1 ≤ k := Nat.not_succ_le_self k
    refine ⟨_, k + 1, hwalk.snoc hedge, by simpa using hreach, by simp [hafter], ?_⟩
    refine (hcarries.congr fun j hj => by simp [hj]).next ?_ ?_
    · simpa using hkept
    · simpa [hafter] using hheld

/-! ### The search finds nothing else -/

/-- What leaves a node some walk carries out of it. -/
def OnlyCarried (f : Flow) (s : Sweep) : Prop :=
  ∀ n t, s.exitOf n = some t → ∀ l ∈ t, f.MayLeave l n

theorem OnlyCarried.mayEnter {f : Flow} {s : Sweep} (h : f.OnlyCarried s) {l : Nat} {n : NodeId}
    (hl : l ∈ f.arriving s n) : f.MayEnter l n := by
  obtain ⟨hheld, p, t, hedge, ht, hlt⟩ := exists_pred_of_mem_arriving hl
  exact (h p t ht l hlt).enter hedge hheld

theorem onlyCarried_after (f : Flow) (k : Nat) : f.OnlyCarried (f.after k) := by
  refine after_invariant f.OnlyCarried (fun n t ht => absurd ht (by simp [exitOf_start])) ?_ k
  intro s n rest hq hord h m t ht l hl
  rw [exitOf_visit (hord.exit_size ▸ hord.head_lt hq)] at ht
  split at ht
  · rename_i hm
    subst hm
    cases ht
    rcases mem_leaving.mp hl with ⟨hl, hkept⟩ | hmade
    · exact .inr ⟨h.mayEnter hl, hkept⟩
    · exact .inl ⟨hord.queue_reached m (by simp [hq]), hmade⟩
  · exact h m t ht l hl

/-- Whatever the policy, a search that has ended finds only loans that some walk carries. -/
theorem mayEnter_of_mem_entryOf {f : Flow} {k : Nat} (hnil : (f.after k).queue = []) {l : Nat}
    {n : NodeId} (hl : l ∈ (f.after k).entryOf n) : f.MayEnter l n := by
  have hord := f.orderly_after k
  by_cases hreach : f.graph.Reaches f.graph.start n
  · rw [hord.entry_eq n hreach (by simp [hnil])] at hl
    exact (f.onlyCarried_after k).mayEnter hl
  · rw [hord.entry_empty n hreach] at hl
    exact absurd hl (IdSet.not_mem_empty l)

/-! ### The search finds all of them -/

theorem mem_arriving_of_carries {f : Flow} (hunion : f.policy = .union) {s : Sweep}
    (hord : s.Orderly f) (hnil : s.queue = []) {l : Nat} {w : Nat → NodeId} {k : Nat}
    (hwalk : f.graph.IsWalk w k) (hreach : f.graph.Reaches f.graph.start (w 0))
    (hcarries : f.Carries l w 0 k) : l ∈ f.arriving s (w k) := by
  -- What leaves a node on the walk enters the next one.
  have hsend : ∀ j < k, l ∈ f.leaving (w j) (f.arriving s (w j)) →
      l ∈ f.arriving s (w (j + 1)) := by
    intro j hj hl
    have hreach' : f.graph.Reaches f.graph.start (w j) :=
      hreach.trans ((hwalk.mono hj.le).reaches_from (Nat.zero_le j))
    exact (mem_arriving_union hunion).mpr ⟨hcarries.held (j + 1) (Nat.succ_pos j) hj, w j, _,
      hwalk j hj, hord.exit_eq (w j) hreach' (by simp [hnil]), hl⟩
  suffices h : ∀ j, 0 < j → j ≤ k → l ∈ f.arriving s (w j) from h k hcarries.lt le_rfl
  intro j hpos hjk
  induction j with
  | zero => omega
  | succ j ih =>
      apply hsend j hjk
      rcases Nat.eq_zero_or_pos j with rfl | hj
      · exact mem_leaving.mpr (.inr hcarries.made)
      · exact mem_leaving.mpr (.inl ⟨ih hj (Nat.le_of_succ_le hjk), hcarries.kept j hj hjk⟩)

/-- When the search has ended, a loan is in scope at the nodes that some walk carries it to. -/
theorem mem_entryOf_union {f : Flow} (hunion : f.policy = .union) {k : Nat}
    (hnil : (f.after k).queue = []) {l : Nat} {n : NodeId} :
    l ∈ (f.after k).entryOf n ↔ f.MayEnter l n := by
  constructor
  · exact mayEnter_of_mem_entryOf hnil
  · rintro ⟨w, j, hwalk, hreach, rfl, hcarries⟩
    have hord := f.orderly_after k
    have hreach' := hreach.trans (hwalk.reaches_from (Nat.zero_le j))
    rw [hord.entry_eq _ hreach' (by simp [hnil])]
    exact mem_arriving_of_carries hunion hord hnil hwalk hreach hcarries

/-! ### The search ends -/

/-- What leaves a node stays within what another visit would let leave it. -/
def Growing (f : Flow) (s : Sweep) : Prop :=
  ∀ n t, s.exitOf n = some t → ∀ l ∈ t, l ∈ f.leaving n (f.arriving s n)

theorem Growing.arriving_visit {f : Flow} (hunion : f.policy = .union) {s : Sweep} (h : f.Growing s)
    {n : NodeId} {rest : List NodeId} (hn : n < s.exit.size) {l : Nat} {m : NodeId}
    (hl : l ∈ f.arriving s m) : l ∈ f.arriving (f.visit s n rest) m := by
  obtain ⟨hheld, p, t, hedge, ht, hlt⟩ := (mem_arriving_union hunion).mp hl
  by_cases hp : p = n
  · subst hp
    refine (mem_arriving_union hunion).mpr ⟨hheld, p, _, hedge, ?_, h p t ht l hlt⟩
    rw [exitOf_visit hn, if_pos rfl]
  · refine (mem_arriving_union hunion).mpr ⟨hheld, p, t, hedge, ?_, hlt⟩
    rw [exitOf_visit hn, if_neg hp, ht]

theorem Growing.visit {f : Flow} (hunion : f.policy = .union) {s : Sweep} (h : f.Growing s)
    {n : NodeId} {rest : List NodeId} (hn : n < s.exit.size) : f.Growing (f.visit s n rest) := by
  have hleaving : ∀ m l, l ∈ f.leaving m (f.arriving s m) →
      l ∈ f.leaving m (f.arriving (f.visit s n rest) m) := by
    intro m l hl
    rcases mem_leaving.mp hl with ⟨hl, hkept⟩ | hmade
    · exact mem_leaving.mpr (.inl ⟨h.arriving_visit hunion hn hl, hkept⟩)
    · exact mem_leaving.mpr (.inr hmade)
  intro m t ht l hl
  apply hleaving
  rw [exitOf_visit hn] at ht
  split at ht
  · rename_i hm
    subst hm
    cases ht
    exact hl
  · exact h m t ht l hl

theorem drains_union {f : Flow} (hunion : f.policy = .union) (hf : f.Bounded) : f.Drains := by
  refine drains_of_weight (P := fun s => f.Growing s ∧ f.ExitBounded s)
    (fun t => (t.map fun t => f.loans - t.card).getD (f.loans + 1))
    ⟨fun n t ht => absurd ht (by simp [exitOf_start]), f.exitBounded_start⟩ ?_ ?_
  · rintro s n rest hq hord ⟨hgrow, hbound⟩
    have hn : n < s.exit.size := hord.exit_size ▸ hord.head_lt hq
    exact ⟨hgrow.visit hunion hn, hbound.visit hf hn⟩
  · rintro s n rest _ _ ⟨hgrow, hbound⟩ hchanged
    have hcard := hbound.card_leaving_le hf n
    cases ht : s.exitOf n with
    | none =>
        simp only [Option.map_some, Option.getD_some, Option.map_none, Option.getD_none]
        omega
    | some t =>
        have hne : t ≠ f.leaving n (f.arriving s n) := fun heq => hchanged (heq ▸ ht)
        have hlt := IdSet.card_lt_card (hgrow n t ht) hne
        simp only [Option.map_some, Option.getD_some]
        omega

end LoanScope.Flow
