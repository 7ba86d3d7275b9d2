import LoanScope.Proofs.InScope.Union

/-! Loans in scope under intersection. A node ignores predecessors that were not visited yet, but
when it is visited for the first time one of them was, since the nodes are queued in reverse
postorder. So the sets only shrink, unless loans come back to the start, where they were not on
entry. -/

namespace LoanScope.Flow

/-- No loan that comes back to the start holds there. -/
def Sealed (f : Flow) : Prop :=
  ∀ m l, f.graph.Reaches f.graph.start m → (m, f.graph.start) ∈ f.graph.edges →
    ¬ f.holds l f.graph.start

theorem sealed_of_no_pred {f : Flow} (h : ∀ m, (m, f.graph.start) ∉ f.graph.edges) : f.Sealed :=
  fun m _ _ hedge => absurd hedge (h m)

theorem Sealed.arriving_start {f : Flow} (hf : f.Sealed) {s : Sweep} (hord : s.Orderly f)
    (l : Nat) :
    l ∉ f.arriving s f.graph.start := by
  intro hl
  obtain ⟨hheld, p, t, hedge, ht, _⟩ := exists_pred_of_mem_arriving hl
  exact hf p l (hord.exit_reached p (by simp [ht])) hedge hheld

/-! ### Nodes with a predecessor visited -/

/-- The node is the start, or something arrives there already. -/
def Fed (f : Flow) (s : Sweep) (n : NodeId) : Prop :=
  n = f.graph.start ∨ ∃ p, (p, n) ∈ f.graph.edges ∧ s.exitOf p ≠ none

/-- The nodes visited are fed, and every node on the queue is fed when its turn comes. -/
structure InTurn (f : Flow) (s : Sweep) : Prop where
  fed : ∀ n, s.exitOf n ≠ none → f.Fed s n
  queue_led : f.graph.Led (f.Fed s) s.queue

theorem inTurn_start (f : Flow) : f.InTurn f.start :=
  ⟨fun n hn => absurd (f.exitOf_start n) hn, f.graph.led_reversePostorder.mono fun _ hn => .inl hn⟩

theorem Fed.visit {f : Flow} {s : Sweep} {n m : NodeId} {rest : List NodeId} (hn : n < s.exit.size)
    (h : f.Fed s m) : f.Fed (f.visit s n rest) m := by
  rcases h with hstart | ⟨p, hedge, hp⟩
  · exact .inl hstart
  · refine .inr ⟨p, hedge, ?_⟩
    rw [exitOf_visit hn]
    split
    · simp
    · exact hp

theorem fed_visit_of_edge {f : Flow} {s : Sweep} {n m : NodeId} {rest : List NodeId}
    (hn : n < s.exit.size) (hedge : (n, m) ∈ f.graph.edges) : f.Fed (f.visit s n rest) m := by
  refine .inr ⟨n, hedge, ?_⟩
  rw [exitOf_visit hn, if_pos rfl]
  simp

theorem InTurn.head_fed {f : Flow} {s : Sweep} (h : f.InTurn s) {n : NodeId} {rest : List NodeId}
    (hq : s.queue = n :: rest) : f.Fed s n := by
  have hled := h.queue_led
  rw [hq] at hled
  exact hled.1

theorem InTurn.visit {f : Flow} {s : Sweep} (h : f.InTurn s) {n : NodeId} {rest : List NodeId}
    (hq : s.queue = n :: rest) (hn : n < s.exit.size) : f.InTurn (f.visit s n rest) := by
  have hled := h.queue_led
  rw [hq] at hled
  have hrest : f.graph.Led (f.Fed (f.visit s n rest)) rest := by
    refine hled.2.mono ?_
    rintro m (hm | hedge)
    · exact hm.visit hn
    · exact fed_visit_of_edge hn hedge
  refine ⟨?_, ?_⟩
  · intro m hm
    rw [exitOf_visit hn] at hm
    split at hm
    · rename_i heq
      subst heq
      exact hled.1.visit hn
    · exact (h.fed m hm).visit hn
  · rw [queue_visit]
    split
    · exact hrest
    · refine hrest.append (.of_forall ?_)
      intro m hm
      exact fed_visit_of_edge hn (Graph.mem_succ.mp (List.mem_filter.mp hm).1)

/-! ### The search ends -/

/-- Another visit would let nothing new leave a node. -/
def Shrinking (f : Flow) (s : Sweep) : Prop :=
  ∀ n t, s.exitOf n = some t → ∀ l ∈ f.leaving n (f.arriving s n), l ∈ t

theorem Shrinking.arriving_visit {f : Flow} (hinter : f.policy = .intersection) (hf : f.Sealed)
    {s : Sweep} (h : f.Shrinking s) (hord : s.Orderly f) {n : NodeId} {rest : List NodeId}
    (hq : s.queue = n :: rest) {m : NodeId} (hfed : f.Fed s m) {l : Nat}
    (hl : l ∈ f.arriving (f.visit s n rest) m) : l ∈ f.arriving s m := by
  have hn : n < s.exit.size := hord.exit_size ▸ hord.head_lt hq
  rcases hfed with rfl | hfed
  · exact absurd hl (hf.arriving_start (hord.visit hq) l)
  obtain ⟨hheld, _, hall⟩ := (mem_arriving_intersection hinter).mp hl
  refine (mem_arriving_intersection hinter).mpr ⟨hheld, hfed, ?_⟩
  intro p t hedge ht
  have hp := hall p
  rw [exitOf_visit hn] at hp
  by_cases hpn : p = n
  · subst hpn
    exact h p t ht l (hp _ hedge (if_pos rfl))
  · exact hp t hedge (by rw [if_neg hpn, ht])

theorem Shrinking.visit {f : Flow} (hinter : f.policy = .intersection) (hf : f.Sealed)
    {s : Sweep} (h : f.Shrinking s) (hturn : f.InTurn s) (hord : s.Orderly f) {n : NodeId}
    {rest : List NodeId} (hq : s.queue = n :: rest) : f.Shrinking (f.visit s n rest) := by
  have hn : n < s.exit.size := hord.exit_size ▸ hord.head_lt hq
  have hleaving : ∀ m, f.Fed s m → ∀ l, l ∈ f.leaving m (f.arriving (f.visit s n rest) m) →
      l ∈ f.leaving m (f.arriving s m) := by
    intro m hfed l hl
    rcases mem_leaving.mp hl with ⟨hl, hkept⟩ | hmade
    · exact mem_leaving.mpr (.inl ⟨h.arriving_visit hinter hf hord hq hfed hl, hkept⟩)
    · exact mem_leaving.mpr (.inr hmade)
  intro m t ht l hl
  rw [exitOf_visit hn] at ht
  split at ht
  · rename_i hm
    subst hm
    cases ht
    exact hleaving m (hturn.head_fed hq) l hl
  · exact h m t ht l (hleaving m (hturn.fed m (by simp [ht])) l hl)

theorem drains_intersection {f : Flow} (hinter : f.policy = .intersection) (hf : f.Sealed)
    (hb : f.Bounded) : f.Drains := by
  refine drains_of_weight (P := fun s => f.InTurn s ∧ f.Shrinking s ∧ f.ExitBounded s)
    (fun t => (t.map IdSet.card).getD (f.loans + 1))
    ⟨f.inTurn_start, fun n t ht => absurd ht (by simp [exitOf_start]), f.exitBounded_start⟩ ?_ ?_
  · rintro s n rest hq hord ⟨hturn, hshrink, hbound⟩
    have hn : n < s.exit.size := hord.exit_size ▸ hord.head_lt hq
    exact ⟨hturn.visit hq hn, hshrink.visit hinter hf hturn hord hq, hbound.visit hb hn⟩
  · rintro s n rest _ _ ⟨_, hshrink, hbound⟩ hchanged
    have hcard := hbound.card_leaving_le hb n
    cases ht : s.exitOf n with
    | none =>
        simp only [Option.map_some, Option.getD_some, Option.map_none, Option.getD_none]
        omega
    | some t =>
        have hne : f.leaving n (f.arriving s n) ≠ t := fun heq => hchanged (heq ▸ ht)
        simpa using IdSet.card_lt_card (hshrink n t ht) hne

/-! ### Loans that every walk carries -/

/-- Every walk from the start to `n` carries the loan there. -/
def MustEnter (f : Flow) (l : Nat) (n : NodeId) : Prop :=
  ∀ w k, f.graph.IsWalk w k → w 0 = f.graph.start → w k = n → ∃ i, f.Carries l w i k

/-- Every walk from the start through `n` carries the loan out of it. -/
def MustLeave (f : Flow) (l : Nat) (n : NodeId) : Prop :=
  f.MustEnter l n ∧ l ∉ f.kills n ∨ l ∈ f.makes n

theorem not_mustEnter_start {f : Flow} {l : Nat} : ¬ f.MustEnter l f.graph.start := by
  intro h
  obtain ⟨i, hi⟩ := h (fun _ => f.graph.start) 0 (fun i hi => absurd hi (Nat.not_lt_zero i)) rfl rfl
  exact Nat.not_lt_zero i hi.lt

theorem MustEnter.held {f : Flow} {l : Nat} {n : NodeId} (h : f.MustEnter l n)
    (hreach : f.graph.Reaches f.graph.start n) : f.holds l n := by
  obtain ⟨w, k, hwalk, hfirst, rfl⟩ := Graph.reaches_iff_walk.mp hreach
  obtain ⟨i, hi⟩ := h w k hwalk hfirst rfl
  exact hi.held k hi.lt le_rfl

/-- What must enter a node must leave its predecessors. -/
theorem MustEnter.pred {f : Flow} {l : Nat} {p n : NodeId} (h : f.MustEnter l n)
    (hreach : f.graph.Reaches f.graph.start p) (hedge : (p, n) ∈ f.graph.edges) :
    f.MustLeave l p := by
  by_cases hmade : l ∈ f.makes p
  · exact .inr hmade
  have hcarried : ∀ w k, f.graph.IsWalk w k → w 0 = f.graph.start → w k = p →
      ∃ i, f.Carries l w i k ∧ l ∉ f.kills p := by
    intro w k hwalk hfirst hlast
    have hafter : ¬ k + 1 ≤ k := Nat.not_succ_le_self k
    obtain ⟨i, hi⟩ := h _ (k + 1) (hwalk.snoc (hlast ▸ hedge)) (by simpa using hfirst)
      (by simp [hafter])
    rcases hi.last_step with rfl | ⟨hi, hkept⟩
    · exact absurd (by simpa [hlast] using hi.made) hmade
    · exact ⟨i, hi.congr fun j hj => by simp [hj], by simpa [hlast] using hkept⟩
  obtain ⟨w, k, hwalk, hfirst, hlast⟩ := Graph.reaches_iff_walk.mp hreach
  obtain ⟨_, _, hkept⟩ := hcarried w k hwalk hfirst hlast
  refine .inl ⟨?_, hkept⟩
  intro w' k' hwalk' hfirst' hlast'
  obtain ⟨i, hi, _⟩ := hcarried w' k' hwalk' hfirst' hlast'
  exact ⟨i, hi⟩

/-! ### The search loses none of them -/

/-- What must leave a node does. -/
def AllCarried (f : Flow) (s : Sweep) : Prop :=
  ∀ n t, s.exitOf n = some t → ∀ l, f.MustLeave l n → l ∈ t

theorem AllCarried.mem_arriving {f : Flow} (hinter : f.policy = .intersection) {s : Sweep}
    (h : f.AllCarried s) (hord : s.Orderly f) {l : Nat} {n : NodeId} (hfed : f.Fed s n)
    (hreach : f.graph.Reaches f.graph.start n) (hmust : f.MustEnter l n) : l ∈ f.arriving s n := by
  rcases hfed with rfl | hfed
  · exact absurd hmust not_mustEnter_start
  refine (mem_arriving_intersection hinter).mpr ⟨hmust.held hreach, hfed, ?_⟩
  intro p t hedge ht
  have hp : f.graph.Reaches f.graph.start p := hord.exit_reached p (by simp [ht])
  exact h p t ht l (hmust.pred hp hedge)

theorem inTurn_allCarried_after {f : Flow} (hinter : f.policy = .intersection) (k : Nat) :
    f.InTurn (f.after k) ∧ f.AllCarried (f.after k) := by
  refine after_invariant (fun s => f.InTurn s ∧ f.AllCarried s)
    ⟨f.inTurn_start, fun n t ht => absurd ht (by simp [exitOf_start])⟩ ?_ k
  rintro s n rest hq hord ⟨hturn, hall⟩
  have hn : n < s.exit.size := hord.exit_size ▸ hord.head_lt hq
  refine ⟨hturn.visit hq hn, ?_⟩
  intro m t ht l hmust
  rw [exitOf_visit hn] at ht
  split at ht
  · rename_i hm
    subst hm
    cases ht
    rcases hmust with ⟨hmust, hkept⟩ | hmade
    · refine mem_leaving.mpr (.inl ⟨?_, hkept⟩)
      exact hall.mem_arriving hinter hord (hturn.head_fed hq)
        (hord.queue_reached m (by simp [hq])) hmust
    · exact mem_leaving.mpr (.inr hmade)
  · exact hall m t ht l hmust

/-! ### The search keeps nothing else -/

theorem mustEnter_of_mem_arriving {f : Flow} (hinter : f.policy = .intersection) (hf : f.Sealed)
    {s : Sweep} (hord : s.Orderly f) (hnil : s.queue = []) {l : Nat} {n : NodeId}
    (hl : l ∈ f.arriving s n) : f.MustEnter l n := by
  intro w k hwalk hfirst hlast
  induction k generalizing n with
  | zero =>
      rw [← hlast, hfirst] at hl
      exact absurd hl (hf.arriving_start hord l)
  | succ k ih =>
      subst hlast
      have hwalk' := hwalk.mono (Nat.le_succ k)
      have hreach : f.graph.Reaches f.graph.start (w k) :=
        hfirst ▸ hwalk'.reaches_from (Nat.zero_le k)
      obtain ⟨hheld, _, hall⟩ := (mem_arriving_intersection hinter).mp hl
      have hleaves := hall (w k) _ (hwalk k (Nat.lt_succ_self k))
        (hord.exit_eq (w k) hreach (by simp [hnil]))
      rcases mem_leaving.mp hleaves with ⟨hl', hkept⟩ | hmade
      · obtain ⟨i, hi⟩ := ih hl' hwalk' rfl
        exact ⟨i, hi.next hkept hheld⟩
      · exact ⟨k, .first hmade hheld⟩

/-- When the search has ended, a loan is in scope at the nodes that every walk carries it to. -/
theorem mem_entryOf_intersection {f : Flow} (hinter : f.policy = .intersection) (hf : f.Sealed)
    {k : Nat} (hnil : (f.after k).queue = []) {l : Nat} {n : NodeId}
    (hreach : f.graph.Reaches f.graph.start n) :
    l ∈ (f.after k).entryOf n ↔ f.MustEnter l n := by
  have hord := f.orderly_after k
  obtain ⟨hturn, hall⟩ := inTurn_allCarried_after hinter k
  have hfed : f.Fed (f.after k) n :=
    hturn.fed n (by simp [hord.exit_eq n hreach (by simp [hnil])])
  rw [hord.entry_eq n hreach (by simp [hnil])]
  exact ⟨mustEnter_of_mem_arriving hinter hf hord hnil, hall.mem_arriving hinter hord hfed hreach⟩

/-- What enters a node other than the start is what leaves all its reachable predecessors. Those
that are out of reach have no say. -/
theorem mem_entryOf_iff_pred {f : Flow} (hinter : f.policy = .intersection) {k : Nat}
    (hnil : (f.after k).queue = []) {n : NodeId} (hreach : f.graph.Reaches f.graph.start n)
    (hn : n ≠ f.graph.start) {l : Nat} :
    l ∈ (f.after k).entryOf n ↔
      f.holds l n ∧ ∀ p, f.graph.Reaches f.graph.start p → (p, n) ∈ f.graph.edges →
        l ∈ (f.after k).entryOf p ∧ l ∉ f.kills p ∨ l ∈ f.makes p := by
  have hord := f.orderly_after k
  have hexit : ∀ p, f.graph.Reaches f.graph.start p →
      (f.after k).exitOf p = some (f.leaving p ((f.after k).entryOf p)) := by
    intro p hp
    rw [hord.exit_eq p hp (by simp [hnil]), hord.entry_eq p hp (by simp [hnil])]
  obtain heq | ⟨q, hq, hedge⟩ := Relation.ReflTransGen.cases_tail hreach
  · exact absurd heq hn
  rw [hord.entry_eq n hreach (by simp [hnil]), mem_arriving_intersection hinter]
  constructor
  · rintro ⟨hheld, -, hall⟩
    exact ⟨hheld, fun p hp hedge => mem_leaving.mp (hall p _ hedge (hexit p hp))⟩
  · rintro ⟨hheld, hall⟩
    refine ⟨hheld, ⟨q, hedge, by simp [hexit q hq]⟩, ?_⟩
    intro p t hedge ht
    have hp := hord.exit_reached p (by simp [ht])
    rw [hexit p hp] at ht
    cases ht
    exact mem_leaving.mpr (hall p hp hedge)

end LoanScope.Flow
