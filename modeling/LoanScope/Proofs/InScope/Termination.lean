import LoanScope.Proofs.IdSet
import LoanScope.Proofs.InScope.Sweep
import Mathlib.Algebra.Order.BigOperators.Group.Finset
import Mathlib.Data.Fintype.BigOperators
import Mathlib.Data.Fintype.Option
import Mathlib.Data.Fintype.Pigeonhole
import Mathlib.Data.Fintype.Powerset

/-! When the search for loans in scope comes to an end. It ends if what leaves a node can change
only so often. It never ends once a state returns, and since there are only so many states, a search
that goes on for long enough has been in one of them twice. -/

namespace LoanScope.Flow

/-! ### Searches that end -/

/-- The sum over all nodes of a weight of what leaves them. -/
def potential (f : Flow) (weight : Option IdSet → Nat) (s : Sweep) : Nat :=
  ∑ n ∈ Finset.range f.graph.size, weight (s.exitOf n)

theorem potential_visit_of_same {f : Flow} {weight : Option IdSet → Nat} {s : Sweep} {n : NodeId}
    {rest : List NodeId} (hn : n < s.exit.size)
    (hsame : s.exitOf n = some (f.leaving n (f.arriving s n))) :
    f.potential weight (f.visit s n rest) = f.potential weight s := by
  apply Finset.sum_congr rfl
  intro m _
  rw [exitOf_visit hn]
  split
  · rename_i hm
    rw [hm, hsame]
  · rfl

theorem potential_visit_lt {f : Flow} {weight : Option IdSet → Nat} {s : Sweep} {n : NodeId}
    {rest : List NodeId} (hn : n < s.exit.size) (hsize : s.exit.size = f.graph.size)
    (hlower : weight (some (f.leaving n (f.arriving s n))) < weight (s.exitOf n)) :
    f.potential weight (f.visit s n rest) < f.potential weight s := by
  apply Finset.sum_lt_sum
  · intro m _
    rw [exitOf_visit hn]
    split
    · rename_i hm
      exact hm ▸ hlower.le
    · exact le_rfl
  · refine ⟨n, Finset.mem_range.mpr (hsize ▸ hn), ?_⟩
    rwa [exitOf_visit hn, if_pos rfl]

/-- If every visit that changes what leaves its node lowers the weight of that, the search ends. A
visit that changes nothing shortens the queue. -/
theorem drains_of_weight {f : Flow} {P : Sweep → Prop} (weight : Option IdSet → Nat)
    (hstart : P f.start)
    (hvisit : ∀ s n rest, s.queue = n :: rest → s.Orderly f → P s → P (f.visit s n rest))
    (hlower : ∀ s n rest, s.queue = n :: rest → s.Orderly f → P s →
      s.exitOf n ≠ some (f.leaving n (f.arriving s n)) →
      weight (some (f.leaving n (f.arriving s n))) < weight (s.exitOf n)) : f.Drains := by
  suffices hends : ∀ p s, s.Orderly f → P s → f.potential weight s = p →
      ∃ k, (f.step^[k] s).queue = [] from hends _ f.start f.orderly_start hstart rfl
  intro p
  induction p using Nat.strong_induction_on with
  | _ p ih =>
      intro s hord hP hp
      -- The potential stays as it is while the queue gets shorter, or else it is lowered.
      induction hq : s.queue generalizing s with
      | nil => exact ⟨0, hq⟩
      | cons n rest ihq =>
          have hn : n < s.exit.size := hord.exit_size ▸ hord.head_lt hq
          have hord' := hord.visit hq
          have hP' := hvisit s n rest hq hord hP
          have hends : ∃ k, (f.step^[k] (f.visit s n rest)).queue = [] := by
            by_cases hsame : s.exitOf n = some (f.leaving n (f.arriving s n))
            · refine ihq _ hord' hP' ?_ ?_
              · rw [potential_visit_of_same hn hsame, hp]
              · rw [queue_visit, if_pos hsame]
            · refine ih _ ?_ _ hord' hP' rfl
              rw [← hp]
              exact potential_visit_lt hn hord.exit_size (hlower s n rest hq hord hP hsame)
          obtain ⟨k, hk⟩ := hends
          refine ⟨k + 1, ?_⟩
          rwa [Function.iterate_succ_apply, step_of_cons hq]

/-! ### Searches that do not end -/

/-- Two states agree on all that the rest of the search depends on. -/
structure Sweep.Alike (s t : Sweep) : Prop where
  queue_eq : s.queue = t.queue
  exit_eq : ∀ n, s.exitOf n = t.exitOf n

theorem Sweep.Alike.step {f : Flow} {s t : Sweep} (h : s.Alike t) (hs : s.Orderly f)
    (ht : t.Orderly f) : (f.step s).Alike (f.step t) := by
  have harriving : ∀ n, f.arriving s n = f.arriving t n :=
    fun n => arriving_congr fun p _ => h.exit_eq p
  cases hq : s.queue with
  | nil =>
      rw [step_of_nil hq, step_of_nil (h.queue_eq ▸ hq)]
      exact h
  | cons n rest =>
      have hq' : t.queue = n :: rest := h.queue_eq ▸ hq
      have hn : n < s.exit.size := hs.exit_size ▸ hs.head_lt hq
      have hn' : n < t.exit.size := ht.exit_size ▸ ht.head_lt hq'
      rw [step_of_cons hq, step_of_cons hq']
      refine ⟨?_, ?_⟩
      · rw [queue_visit, queue_visit, h.exit_eq, harriving]
      · intro m
        rw [exitOf_visit hn, exitOf_visit hn', h.exit_eq, harriving]

theorem alike_after_add {f : Flow} {i j : Nat} (h : (f.after i).Alike (f.after j)) (d : Nat) :
    (f.after (i + d)).Alike (f.after (j + d)) := by
  induction d with
  | zero => exact h
  | succ d ih =>
      rw [← Nat.add_assoc, ← Nat.add_assoc, after_succ, after_succ]
      exact ih.step (f.orderly_after _) (f.orderly_after _)

/-- A state that returns once returns again and again. -/
theorem alike_after_mul {f : Flow} {i d : Nat} (h : (f.after i).Alike (f.after (i + d))) (k : Nat) :
    (f.after i).Alike (f.after (i + k * d)) := by
  induction k with
  | zero => exact ⟨by simp, by simp⟩
  | succ k ih =>
      have hnext := alike_after_add h (k * d)
      have harith : i + d + k * d = i + (k + 1) * d := by rw [Nat.succ_mul]; omega
      rw [harith] at hnext
      exact ⟨ih.queue_eq.trans hnext.queue_eq, fun n => (ih.exit_eq n).trans (hnext.exit_eq n)⟩

theorem not_drains_of_alike {f : Flow} {i j : Nat} (hij : i < j)
    (halike : (f.after i).Alike (f.after j)) (hne : (f.after i).queue ≠ []) : ¬ f.Drains := by
  rintro ⟨k, hk⟩
  obtain ⟨d, rfl⟩ := Nat.exists_eq_add_of_lt hij
  have hlate : k ≤ i + k * (d + 1) :=
    (Nat.le_mul_of_pos_right k (Nat.succ_pos d)).trans (Nat.le_add_left _ i)
  have hreturn := (alike_after_mul (d := d + 1) halike k).queue_eq
  rw [after_of_drained hk hlate, hk] at hreturn
  exact hne hreturn

/-! ### The number of states -/

/-- The loans that nodes make are among those of the flow. -/
def Bounded (f : Flow) : Prop := ∀ n, ∀ l ∈ f.makes n, l < f.loans

/-- What leaves a node is among the loans of the flow. -/
def ExitBounded (f : Flow) (s : Sweep) : Prop :=
  ∀ n t, s.exitOf n = some t → ∀ l ∈ t, l < f.loans

theorem exitBounded_start (f : Flow) : f.ExitBounded f.start := by
  intro n t ht
  simp [exitOf_start] at ht

theorem ExitBounded.lt_of_mem_leaving {f : Flow} (hf : f.Bounded) {s : Sweep} (h : f.ExitBounded s)
    {n : NodeId} {l : Nat} (hl : l ∈ f.leaving n (f.arriving s n)) : l < f.loans := by
  rcases mem_leaving.mp hl with ⟨hl, _⟩ | hl
  · obtain ⟨_, p, t, _, ht, hlt⟩ := exists_pred_of_mem_arriving hl
    exact h p t ht l hlt
  · exact hf n l hl

theorem ExitBounded.card_leaving_le {f : Flow} (hf : f.Bounded) {s : Sweep} (h : f.ExitBounded s)
    (n : NodeId) : (f.leaving n (f.arriving s n)).card ≤ f.loans :=
  IdSet.card_le_of_lt fun _ hl => h.lt_of_mem_leaving hf hl

theorem ExitBounded.visit {f : Flow} (hf : f.Bounded) {s : Sweep} {n : NodeId} {rest : List NodeId}
    (h : f.ExitBounded s) (hn : n < s.exit.size) : f.ExitBounded (f.visit s n rest) := by
  intro m t ht l hl
  rw [exitOf_visit hn] at ht
  split at ht
  · rename_i hm
    subst hm
    cases ht
    exact h.lt_of_mem_leaving hf hl
  · exact h m t ht l hl

theorem Bounded.exitBounded_after {f : Flow} (hf : f.Bounded) (k : Nat) :
    f.ExitBounded (f.after k) :=
  after_invariant f.ExitBounded f.exitBounded_start
    (fun _ _ _ hq hord h => h.visit hf (hord.exit_size ▸ hord.head_lt hq)) k

/-- A queue as a table that gives each position its node. -/
def queueCode (size : Nat) (queue : List NodeId) : Fin size → Option (Fin size) :=
  fun i => queue[i]?.bind fun n => if h : n < size then some ⟨n, h⟩ else none

theorem map_val_queueCode {size : Nat} {queue : List NodeId} (h : ∀ n ∈ queue, n < size)
    (i : Fin size) : (queueCode size queue i).map Fin.val = queue[i]? := by
  unfold queueCode
  cases hn : queue[i]? with
  | none => rfl
  | some n =>
      have hlt : n < size := h n (List.mem_of_getElem? hn)
      simp [hlt]

theorem queueCode_injective {size : Nat} {q r : List NodeId} (hq : ∀ n ∈ q, n < size)
    (hr : ∀ n ∈ r, n < size) (hqlen : q.length ≤ size) (hrlen : r.length ≤ size)
    (h : queueCode size q = queueCode size r) : q = r := by
  apply List.ext_getElem?
  intro i
  by_cases hi : i < size
  · have hq' := map_val_queueCode hq ⟨i, hi⟩
    rw [h, map_val_queueCode hr ⟨i, hi⟩] at hq'
    exact hq'.symm
  · rw [List.getElem?_eq_none (by omega), List.getElem?_eq_none (by omega)]

/-- What leaves the nodes as a table of finite sets. -/
def exitCode (f : Flow) (s : Sweep) : Fin f.graph.size → Option (Finset (Fin f.loans)) :=
  fun n => (s.exitOf n).map fun t => Finset.univ.filter fun l => l.val ∈ t

theorem exitCode_injective {f : Flow} {s t : Sweep} {n : Fin f.graph.size}
    (hs : ∀ u, s.exitOf n = some u → ∀ l ∈ u, l < f.loans)
    (ht : ∀ u, t.exitOf n = some u → ∀ l ∈ u, l < f.loans)
    (h : f.exitCode s n = f.exitCode t n) : s.exitOf n = t.exitOf n := by
  simp only [exitCode] at h
  cases hsn : s.exitOf n with
  | none =>
      cases htn : t.exitOf n with
      | none => rfl
      | some v => simp [hsn, htn] at h
  | some u =>
      cases htn : t.exitOf n with
      | none => simp [hsn, htn] at h
      | some v =>
          simp only [hsn, htn, Option.map_some, Option.some.injEq] at h
          congr 1
          apply IdSet.ext
          intro l
          by_cases hl : l < f.loans
          · have hmem := Finset.ext_iff.mp h ⟨l, hl⟩
            simpa using hmem
          · exact ⟨fun hu => absurd (hs u hsn l hu) hl, fun hv => absurd (ht v htn l hv) hl⟩

theorem Sweep.Orderly.queue_length_le {f : Flow} {s : Sweep} (h : s.Orderly f) :
    s.queue.length ≤ f.graph.size := by
  have hsub : s.queue ⊆ List.range f.graph.size :=
    fun n hn => List.mem_range.mpr ((h.queue_reached n hn).lt_size f.graph.start_lt)
  simpa using (List.subperm_of_subset h.queue_nodup hsub).length_le

/-- States with the same codes are alike. -/
theorem alike_of_codes {f : Flow} (hf : f.Bounded) {i j : Nat}
    (hqueue : queueCode f.graph.size (f.after i).queue = queueCode f.graph.size (f.after j).queue)
    (hexit : f.exitCode (f.after i) = f.exitCode (f.after j)) :
    (f.after i).Alike (f.after j) := by
  have hi := f.orderly_after i
  have hj := f.orderly_after j
  have hinside : ∀ k, ∀ n ∈ (f.after k).queue, n < f.graph.size :=
    fun k n hn => ((f.orderly_after k).queue_reached n hn).lt_size f.graph.start_lt
  refine ⟨queueCode_injective (hinside i) (hinside j) hi.queue_length_le hj.queue_length_le hqueue,
    ?_⟩
  intro n
  by_cases hn : n < f.graph.size
  · exact exitCode_injective (n := ⟨n, hn⟩) (hf.exitBounded_after i n) (hf.exitBounded_after j n)
      (congrFun hexit ⟨n, hn⟩)
  · have houtside : ∀ k, (f.after k).exitOf n = none := by
      intro k
      by_contra hne
      exact hn (((f.orderly_after k).exit_reached n hne).lt_size f.graph.start_lt)
    rw [houtside, houtside]

/-- Among more states than there are codes, two are alike. -/
theorem exists_alike {f : Flow} (hf : f.Bounded) :
    ∃ i j, i < j ∧ j ≤ f.stateBound ∧ (f.after i).Alike (f.after j) := by
  have hcard : Fintype.card ((Fin f.graph.size → Option (Fin f.graph.size)) ×
      (Fin f.graph.size → Option (Finset (Fin f.loans)))) <
        Fintype.card (Fin (f.stateBound + 1)) := by
    rw [Fintype.card_fin]
    simp [stateBound]
  obtain ⟨i, j, hne, hij⟩ := Fintype.exists_ne_map_eq_of_card_lt
    (fun k : Fin (f.stateBound + 1) =>
      (queueCode f.graph.size (f.after k).queue, f.exitCode (f.after k))) hcard
  obtain ⟨hqueue, hexit⟩ := Prod.mk.inj hij
  rcases Nat.lt_or_gt_of_ne (Fin.val_ne_of_ne hne) with hlt | hlt
  · exact ⟨i, j, hlt, Nat.le_of_lt_succ j.isLt, alike_of_codes hf hqueue hexit⟩
  · exact ⟨j, i, hlt, Nat.le_of_lt_succ i.isLt, alike_of_codes hf hqueue.symm hexit.symm⟩

/-- A search that has not ended after as many visits as there are states never ends. -/
theorem drained_of_drains {f : Flow} (hf : f.Bounded) (h : f.Drains) :
    (f.after f.stateBound).queue = [] := by
  obtain ⟨i, j, hij, hj, halike⟩ := exists_alike hf
  have hnil : (f.after i).queue = [] := by
    by_contra hne
    exact not_drains_of_alike hij halike hne h
  rw [after_of_drained hnil (hij.le.trans hj), hnil]

/-- `settle` finds the end of every search that has one. -/
theorem settle_eq_some_iff {f : Flow} (hf : f.Bounded) {s : Sweep} :
    f.settle = some s ↔ f.Drains ∧ f.after f.stateBound = s := by
  rw [settle, run_eq_some_iff]
  constructor
  · rintro ⟨rfl, hnil⟩
    exact ⟨⟨f.stateBound, hnil⟩, rfl⟩
  · rintro ⟨hdrains, rfl⟩
    exact ⟨rfl, drained_of_drains hf hdrains⟩

end LoanScope.Flow
