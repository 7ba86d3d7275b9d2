import LoanScope.InScope
import LoanScope.Proofs.Graph.ReversePostorder

/-! The search for loans in scope, visit by visit. Whatever the policy, a node off the queue is up
to date: what leaves it is what its predecessors send through it. -/

namespace LoanScope.Flow

/-! ### Visits in a row -/

/-- Visits the first node of the queue, if there is one. -/
def step (f : Flow) (s : Sweep) : Sweep :=
  match s.queue with
  | [] => s
  | n :: rest => f.visit s n rest

/-- The state after a number of visits. -/
def after (f : Flow) (k : Nat) : Sweep := f.step^[k] f.start

/-- The search comes to an end. -/
def Drains (f : Flow) : Prop := ∃ k, (f.after k).queue = []

theorem step_of_nil {f : Flow} {s : Sweep} (h : s.queue = []) : f.step s = s := by
  simp [step, h]

theorem step_of_cons {f : Flow} {s : Sweep} {n : NodeId} {rest : List NodeId}
    (h : s.queue = n :: rest) : f.step s = f.visit s n rest := by
  simp [step, h]

theorem run_of_nil {f : Flow} {k : Nat} {s : Sweep} (h : s.queue = []) : f.run k s = some s := by
  unfold run
  simp [h]

theorem run_zero_of_cons {f : Flow} {s : Sweep} {n : NodeId} {rest : List NodeId}
    (h : s.queue = n :: rest) : f.run 0 s = none := by
  unfold run
  simp [h]

theorem run_succ_of_cons {f : Flow} {k : Nat} {s : Sweep} {n : NodeId} {rest : List NodeId}
    (h : s.queue = n :: rest) : f.run (k + 1) s = f.run k (f.visit s n rest) := by
  rw [run.eq_def]
  simp [h]

/-- A run is a number of visits after which the queue is empty. -/
theorem run_eq_some_iff {f : Flow} {k : Nat} {s t : Sweep} :
    f.run k s = some t ↔ f.step^[k] s = t ∧ t.queue = [] := by
  induction k generalizing s with
  | zero =>
      rw [Function.iterate_zero, id_eq]
      cases hq : s.queue with
      | nil =>
          rw [run_of_nil hq, Option.some.injEq]
          exact ⟨fun h => ⟨h, h ▸ hq⟩, And.left⟩
      | cons n rest =>
          rw [run_zero_of_cons hq]
          constructor
          · intro h
            simp at h
          · rintro ⟨rfl, h⟩
            simp [hq] at h
  | succ k ih =>
      rw [Function.iterate_succ_apply]
      cases hq : s.queue with
      | nil =>
          have hfix : f.step^[k] s = s := Function.iterate_fixed (step_of_nil hq) k
          rw [run_of_nil hq, step_of_nil hq, hfix, Option.some.injEq]
          exact ⟨fun h => ⟨h, h ▸ hq⟩, And.left⟩
      | cons n rest => rw [run_succ_of_cons hq, step_of_cons hq, ih]

theorem after_succ (f : Flow) (k : Nat) : f.after (k + 1) = f.step (f.after k) :=
  Function.iterate_succ_apply' f.step k f.start

/-- Once the queue is empty nothing changes any more. -/
theorem after_of_drained {f : Flow} {k : Nat} (h : (f.after k).queue = []) {j : Nat} (hj : k ≤ j) :
    f.after j = f.after k := by
  obtain ⟨d, rfl⟩ := Nat.exists_eq_add_of_le hj
  rw [after, Nat.add_comm, Function.iterate_add_apply]
  exact Function.iterate_fixed (step_of_nil h) d

/-- What the start has and every visit keeps, every state of the search has. -/
theorem after_induction {f : Flow} (P : Sweep → Prop) (hstart : P f.start)
    (hvisit : ∀ s n rest, s.queue = n :: rest → P s → P (f.visit s n rest)) (k : Nat) :
    P (f.after k) := by
  induction k with
  | zero => exact hstart
  | succ k ih =>
      rw [after_succ]
      cases hq : (f.after k).queue with
      | nil => rwa [step_of_nil hq]
      | cons n rest =>
          rw [step_of_cons hq]
          exact hvisit _ n rest hq ih

/-! ### What one visit does -/

section visit

variable {f : Flow} {s : Sweep} {n : NodeId} {rest : List NodeId}

@[simp] theorem size_entry_visit : (f.visit s n rest).entry.size = s.entry.size := by
  simp only [visit]
  split <;> simp

@[simp] theorem size_exit_visit : (f.visit s n rest).exit.size = s.exit.size := by
  simp only [visit]
  split <;> simp

theorem exitOf_visit (hn : n < s.exit.size) (m : NodeId) :
    (f.visit s n rest).exitOf m =
      if m = n then some (f.leaving n (f.arriving s n)) else s.exitOf m := by
  simp only [visit]
  split
  · rename_i hsame
    by_cases hm : m = n
    · rw [if_pos hm, hm]
      exact hsame
    · rw [if_neg hm]
      rfl
  · by_cases hm : m = n
    · simp [hm, Sweep.exitOf, hn]
    · simp [hm, Sweep.exitOf, Ne.symm hm]

theorem entryOf_visit (hn : n < s.entry.size) (m : NodeId) :
    (f.visit s n rest).entryOf m = if m = n then f.arriving s n else s.entryOf m := by
  have hentry : (f.visit s n rest).entry = s.entry.setIfInBounds n (f.arriving s n) := by
    simp only [visit]
    split <;> rfl
  rw [Sweep.entryOf, hentry]
  by_cases hm : m = n
  · simp [hm, hn]
  · simp [hm, Sweep.entryOf, Ne.symm hm]

/-- After a visit that changed nothing the queue is shorter, otherwise all successors are in it. -/
theorem queue_visit :
    (f.visit s n rest).queue =
      if s.exitOf n = some (f.leaving n (f.arriving s n)) then rest
      else rest ++ (f.graph.succ n).filter (· ∉ rest) := by
  simp only [visit]
  split <;> rfl

theorem mem_queue_visit {m : NodeId} :
    m ∈ (f.visit s n rest).queue ↔
      m ∈ rest ∨ s.exitOf n ≠ some (f.leaving n (f.arriving s n)) ∧ (n, m) ∈ f.graph.edges := by
  rw [queue_visit]
  split
  · rename_i hsame
    simp [hsame]
  · rename_i hchanged
    simp only [List.mem_append, List.mem_filter, decide_eq_true_eq, Graph.mem_succ, hchanged,
      ne_eq, not_false_iff, true_and]
    tauto

end visit

/-- What arrives at a node depends on what leaves its predecessors, and on nothing else. -/
theorem arriving_congr {f : Flow} {s t : Sweep} {n : NodeId}
    (h : ∀ p, (p, n) ∈ f.graph.edges → s.exitOf p = t.exitOf p) :
    f.arriving s n = f.arriving t n := by
  have hpred : (f.graph.pred n).filterMap s.exitOf = (f.graph.pred n).filterMap t.exitOf :=
    List.filterMap_congr fun p hp => h p (Graph.mem_pred.mp hp)
  rw [arriving, hpred, arriving]

/-! ### Membership -/

section membership

variable {f : Flow} {s : Sweep} {n : NodeId} {l : Nat}

@[simp] theorem mem_leaving {entry : IdSet} :
    l ∈ f.leaving n entry ↔ l ∈ entry ∧ l ∉ f.kills n ∨ l ∈ f.makes n := by
  simp [leaving]

theorem mem_foldl_union {sets : List IdSet} {first : IdSet} :
    l ∈ sets.foldl .union first ↔ l ∈ first ∨ ∃ t ∈ sets, l ∈ t := by
  induction sets generalizing first with
  | nil => simp
  | cons t rest ih =>
      rw [List.foldl_cons, ih, IdSet.mem_union, List.exists_mem_cons_iff, or_assoc]

theorem mem_foldl_inter {sets : List IdSet} {first : IdSet} :
    l ∈ sets.foldl .inter first ↔ l ∈ first ∧ ∀ t ∈ sets, l ∈ t := by
  induction sets generalizing first with
  | nil => simp
  | cons t rest ih =>
      rw [List.foldl_cons, ih, IdSet.mem_inter, List.forall_mem_cons, and_assoc]

theorem mem_join_union {sets : List IdSet} (h : f.policy = .union) :
    l ∈ f.join sets ↔ ∃ t ∈ sets, l ∈ t := by
  simp [join, h, mem_foldl_union]

theorem mem_join_intersection {sets : List IdSet} (h : f.policy = .intersection) :
    l ∈ f.join sets ↔ sets ≠ [] ∧ ∀ t ∈ sets, l ∈ t := by
  cases sets with
  | nil => simp [join, h]
  | cons t rest => simp [join, h, mem_foldl_inter]

/-- The sets that are joined at a node: those of the predecessors visited. -/
theorem mem_arriving_sets {t : IdSet} :
    t ∈ (f.graph.pred n).filterMap s.exitOf ↔
      ∃ p, (p, n) ∈ f.graph.edges ∧ s.exitOf p = some t := by
  simp [List.mem_filterMap, Graph.mem_pred]

theorem mem_arriving_union (h : f.policy = .union) :
    l ∈ f.arriving s n ↔
      f.holds l n ∧ ∃ p t, (p, n) ∈ f.graph.edges ∧ s.exitOf p = some t ∧ l ∈ t := by
  rw [arriving, IdSet.mem_filter, mem_join_union h, and_comm]
  apply and_congr_right
  intro _
  constructor
  · rintro ⟨t, ht, hl⟩
    obtain ⟨p, hedge, hexit⟩ := mem_arriving_sets.mp ht
    exact ⟨p, t, hedge, hexit, hl⟩
  · rintro ⟨p, t, hedge, hexit, hl⟩
    exact ⟨t, mem_arriving_sets.mpr ⟨p, hedge, hexit⟩, hl⟩

theorem mem_arriving_intersection (h : f.policy = .intersection) :
    l ∈ f.arriving s n ↔
      f.holds l n ∧ (∃ p, (p, n) ∈ f.graph.edges ∧ s.exitOf p ≠ none) ∧
        ∀ p t, (p, n) ∈ f.graph.edges → s.exitOf p = some t → l ∈ t := by
  rw [arriving, IdSet.mem_filter, mem_join_intersection h, and_comm]
  apply and_congr_right
  intro _
  apply and_congr
  · constructor
    · intro hne
      obtain ⟨t, ht⟩ := List.exists_mem_of_ne_nil _ hne
      obtain ⟨p, hedge, hexit⟩ := mem_arriving_sets.mp ht
      exact ⟨p, hedge, by simp [hexit]⟩
    · rintro ⟨p, hedge, hexit⟩
      obtain ⟨t, ht⟩ := Option.ne_none_iff_exists'.mp hexit
      exact List.ne_nil_of_mem (mem_arriving_sets.mpr ⟨p, hedge, ht⟩)
  · constructor
    · intro hall p t hedge hexit
      exact hall t (mem_arriving_sets.mpr ⟨p, hedge, hexit⟩)
    · intro hall t ht
      obtain ⟨p, hedge, hexit⟩ := mem_arriving_sets.mp ht
      exact hall p t hedge hexit

/-- By either policy, what arrives at a node holds there and comes from some predecessor. -/
theorem exists_pred_of_mem_arriving (h : l ∈ f.arriving s n) :
    f.holds l n ∧ ∃ p t, (p, n) ∈ f.graph.edges ∧ s.exitOf p = some t ∧ l ∈ t := by
  cases hpolicy : f.policy with
  | union => exact (mem_arriving_union hpolicy).mp h
  | intersection =>
      obtain ⟨hholds, ⟨p, hedge, hexit⟩, hall⟩ := (mem_arriving_intersection hpolicy).mp h
      obtain ⟨t, ht⟩ := Option.ne_none_iff_exists'.mp hexit
      exact ⟨hholds, p, t, hedge, ht, hall p t hedge ht⟩

end membership

/-! ### What holds in every state -/

/-- The nodes that count are those the start reaches: only they are queued or visited, and those off
the queue are up to date. -/
structure Sweep.Orderly (f : Flow) (s : Sweep) : Prop where
  entry_size : s.entry.size = f.graph.size
  exit_size : s.exit.size = f.graph.size
  queue_nodup : s.queue.Nodup
  queue_reached : ∀ n ∈ s.queue, f.graph.Reaches f.graph.start n
  exit_reached : ∀ n, s.exitOf n ≠ none → f.graph.Reaches f.graph.start n
  exit_eq : ∀ n, f.graph.Reaches f.graph.start n → n ∉ s.queue →
    s.exitOf n = some (f.leaving n (f.arriving s n))
  entry_eq : ∀ n, f.graph.Reaches f.graph.start n → n ∉ s.queue → s.entryOf n = f.arriving s n
  entry_empty : ∀ n, ¬ f.graph.Reaches f.graph.start n → s.entryOf n = ∅

theorem exitOf_start (f : Flow) (n : NodeId) : f.start.exitOf n = none := by
  simp only [Sweep.exitOf, start, Array.getD_eq_getD_getElem?, Array.getElem?_replicate]
  split <;> rfl

theorem entryOf_start (f : Flow) (n : NodeId) : f.start.entryOf n = ∅ := by
  simp only [Sweep.entryOf, start, Array.getD_eq_getD_getElem?, Array.getElem?_replicate]
  split <;> rfl

theorem orderly_start (f : Flow) : f.start.Orderly f := by
  have hqueued : ∀ n, f.graph.Reaches f.graph.start n → n ∈ f.start.queue :=
    fun n hn => Graph.mem_reversePostorder.mpr hn
  exact ⟨by simp [start], by simp [start], Graph.nodup_reversePostorder _,
    fun n hn => Graph.mem_reversePostorder.mp hn, fun n hn => absurd (f.exitOf_start n) hn,
    fun n hn hq => absurd (hqueued n hn) hq, fun n hn hq => absurd (hqueued n hn) hq,
    fun n _ => f.entryOf_start n⟩

theorem Sweep.Orderly.head_lt {f : Flow} {s : Sweep} (h : s.Orderly f) {n : NodeId}
    {rest : List NodeId} (hq : s.queue = n :: rest) : n < f.graph.size :=
  (h.queue_reached n (by simp [hq])).lt_size f.graph.start_lt

/-- A node whose predecessors a visit does not change has the same arriving. -/
theorem arriving_visit_of_no_edge {f : Flow} {s : Sweep} {n m : NodeId} {rest : List NodeId}
    (hn : n < s.exit.size) (hedge : (n, m) ∉ f.graph.edges) :
    f.arriving (f.visit s n rest) m = f.arriving s m := by
  apply arriving_congr
  intro p hp
  have hpn : p ≠ n := fun heq => hedge (heq ▸ hp)
  rw [exitOf_visit hn, if_neg hpn]

/-- A visit that changes nothing changes nothing of what arrives anywhere. -/
theorem arriving_visit_of_same {f : Flow} {s : Sweep} {n : NodeId} {rest : List NodeId}
    (hn : n < s.exit.size) (hsame : s.exitOf n = some (f.leaving n (f.arriving s n))) (m : NodeId) :
    f.arriving (f.visit s n rest) m = f.arriving s m := by
  apply arriving_congr
  intro p _
  rw [exitOf_visit hn]
  split
  · rename_i hp
    rw [hp, hsame]
  · rfl

/-- A node that is off the queue after a visit sees the same arriving as before it. -/
theorem arriving_visit_of_not_mem {f : Flow} {s : Sweep} {n m : NodeId} {rest : List NodeId}
    (hn : n < s.exit.size) (hm : m ∉ (f.visit s n rest).queue) :
    f.arriving (f.visit s n rest) m = f.arriving s m := by
  by_cases hsame : s.exitOf n = some (f.leaving n (f.arriving s n))
  · exact arriving_visit_of_same hn hsame m
  · apply arriving_visit_of_no_edge hn
    exact fun hedge => hm (mem_queue_visit.mpr (.inr ⟨hsame, hedge⟩))

theorem Sweep.Orderly.visit {f : Flow} {s : Sweep} (h : s.Orderly f) {n : NodeId}
    {rest : List NodeId} (hq : s.queue = n :: rest) : (f.visit s n rest).Orderly f := by
  have hreach : f.graph.Reaches f.graph.start n := h.queue_reached n (by simp [hq])
  have hn : n < s.exit.size := h.exit_size ▸ h.head_lt hq
  have hn' : n < s.entry.size := h.entry_size ▸ h.head_lt hq
  have hnodup : n ∉ rest ∧ rest.Nodup := List.nodup_cons.mp (hq ▸ h.queue_nodup)
  -- A node that stays off the queue was off it before, unless it is the one visited.
  have hoff : ∀ m, m ∉ (f.visit s n rest).queue → m ≠ n → m ∉ s.queue := by
    intro m hm hne hmem
    rcases List.mem_cons.mp (hq ▸ hmem) with rfl | hmem
    · exact hne rfl
    · exact hm (mem_queue_visit.mpr (.inl hmem))
  refine ⟨by simp [h.entry_size], by simp [h.exit_size], ?_, ?_, ?_, ?_, ?_, ?_⟩
  · rw [queue_visit]
    split
    · exact hnodup.2
    · refine List.nodup_append'.mpr ⟨hnodup.2, (f.graph.nodup_succ n).filter _, ?_⟩
      intro m hm hadded
      simp [hm] at hadded
  · intro m hm
    rcases mem_queue_visit.mp hm with hm | ⟨_, hedge⟩
    · exact h.queue_reached m (by simp [hq, hm])
    · exact hreach.tail hedge
  · intro m hm
    rw [exitOf_visit hn] at hm
    split at hm
    · rename_i heq
      exact heq ▸ hreach
    · exact h.exit_reached m hm
  · intro m hm hoffq
    rw [exitOf_visit hn, arriving_visit_of_not_mem hn hoffq]
    split
    · rename_i heq
      rw [heq]
    · rename_i hne
      exact h.exit_eq m hm (hoff m hoffq hne)
  · intro m hm hoffq
    rw [entryOf_visit hn', arriving_visit_of_not_mem hn hoffq]
    split
    · rename_i heq
      rw [heq]
    · rename_i hne
      exact h.entry_eq m hm (hoff m hoffq hne)
  · intro m hm
    have hne : m ≠ n := fun heq => hm (heq ▸ hreach)
    rw [entryOf_visit hn', if_neg hne]
    exact h.entry_empty m hm

theorem orderly_after (f : Flow) (k : Nat) : (f.after k).Orderly f :=
  after_induction (Sweep.Orderly f) f.orderly_start (fun _ _ _ hq h => h.visit hq) k

/-- An invariant may rely on the states being orderly. -/
theorem after_invariant {f : Flow} (P : Sweep → Prop) (hstart : P f.start)
    (hvisit : ∀ s n rest, s.queue = n :: rest → s.Orderly f → P s → P (f.visit s n rest))
    (k : Nat) : P (f.after k) := by
  refine (after_induction (fun s => s.Orderly f ∧ P s) ⟨f.orderly_start, hstart⟩ ?_ k).2
  rintro s n rest hq ⟨hord, hP⟩
  exact ⟨hord.visit hq, hvisit s n rest hq hord hP⟩

end LoanScope.Flow
