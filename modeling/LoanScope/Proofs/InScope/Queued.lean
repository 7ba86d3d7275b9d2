import LoanScope.Proofs.InScope.Sweep

/-! The search with marks on the nodes that are queued. A successor is queued if it has no mark, one
after the other, and a node loses its mark when it is taken off the queue. The marks are always on
the nodes in the queue, so that the search is the one that looks the successors up in the queue
itself. -/

namespace LoanScope.Flow

/-- A queue and the set of the nodes that are marked as queued. -/
structure Marked where
  queue : List NodeId
  queued : IdSet

namespace Marked

/-- Queues a node and marks it, unless it is marked. -/
def push (q : Marked) (n : NodeId) : Marked :=
  if n ∈ q.queued then q else ⟨q.queue ++ [n], q.queued.insert n⟩

/-- The marks are on the nodes in the queue. -/
def Agrees (q : Marked) : Prop := ∀ n, n ∈ q.queued ↔ n ∈ q.queue

theorem Agrees.push {q : Marked} (h : q.Agrees) (n : NodeId) : (q.push n).Agrees := by
  intro m
  rw [Marked.push]
  split
  · exact h m
  · rw [IdSet.mem_insert, h m, List.mem_append, List.mem_singleton, or_comm]

theorem Agrees.foldl_push {q : Marked} (h : q.Agrees) (nodes : List NodeId) :
    (nodes.foldl Marked.push q).Agrees := by
  induction nodes generalizing q with
  | nil => exact h
  | cons n rest ih => exact ih (h.push n)

/-- Pushing different nodes adds those that were not in the queue. -/
theorem queue_foldl_push {q : Marked} (h : q.Agrees) {nodes : List NodeId} (hnodup : nodes.Nodup) :
    (nodes.foldl push q).queue = q.queue ++ nodes.filter (· ∉ q.queue) := by
  induction nodes generalizing q with
  | nil => simp
  | cons n rest ih =>
      obtain ⟨hn, hrest⟩ := List.nodup_cons.mp hnodup
      rw [List.foldl_cons, ih (h.push n) hrest]
      by_cases hq : n ∈ q.queue
      · have hpush : q.push n = q := if_pos ((h n).mpr hq)
        rw [hpush, List.filter_cons_of_neg (by simpa using hq)]
      · have hpush : (q.push n).queue = q.queue ++ [n] := by
          rw [push, if_neg fun hmem => hq ((h n).mp hmem)]
        -- The node pushed does not come again, so the later ones are looked up as before.
        have hlater : rest.filter (· ∉ q.queue ++ [n]) = rest.filter (· ∉ q.queue) := by
          apply List.filter_congr
          intro m hm
          have hne : m ≠ n := fun heq => hn (heq ▸ hm)
          simp [hne]
        rw [hpush, hlater, List.filter_cons_of_pos (by simpa using hq), List.append_assoc,
          List.singleton_append]

end Marked

/-- A state of the search and its marks. -/
structure MarkedSweep where
  sweep : Sweep
  queued : IdSet

namespace MarkedSweep

/-- At the start all queued nodes are marked. -/
def start (f : Flow) : MarkedSweep := ⟨f.start, .ofList f.start.queue⟩

/-- Takes the first node off the queue, with its mark, and visits it. If what leaves it changed, its
successors are pushed one after the other. -/
def step (f : Flow) (s : MarkedSweep) : MarkedSweep :=
  match s.sweep.queue with
  | [] => s
  | n :: rest =>
      let queued := s.queued.filter (· ≠ n)
      let entry := f.arriving s.sweep n
      let exit := f.leaving n entry
      let entries := s.sweep.entry.setIfInBounds n entry
      if s.sweep.exitOf n = some exit then
        ⟨⟨rest, entries, s.sweep.exit, s.sweep.visits + 1⟩, queued⟩
      else
        let pushed := (f.graph.succ n).foldl Marked.push ⟨rest, queued⟩
        ⟨⟨pushed.queue, entries, s.sweep.exit.setIfInBounds n (some exit), s.sweep.visits + 1⟩,
          pushed.queued⟩

/-- The state after a number of visits. -/
def after (f : Flow) (k : Nat) : MarkedSweep := (step f)^[k] (start f)

/-- The search in the state `t` with marks on its queue. -/
structure Tracks (s : MarkedSweep) (t : Sweep) : Prop where
  sweep : s.sweep = t
  queued : ∀ n, n ∈ s.queued ↔ n ∈ t.queue

/-- A visit with marks is a visit without them. -/
theorem Tracks.step {f : Flow} {s : MarkedSweep} {t : Sweep} (h : s.Tracks t)
    (hnodup : t.queue.Nodup) : (step f s).Tracks (f.step t) := by
  obtain ⟨rfl, hqueued⟩ := h
  rw [MarkedSweep.step]
  cases hq : s.sweep.queue with
  | nil =>
      rw [step_of_nil hq]
      exact ⟨rfl, hqueued⟩
  | cons n rest =>
      rw [hq] at hnodup hqueued
      obtain ⟨hn, -⟩ := List.nodup_cons.mp hnodup
      have hagrees : Marked.Agrees ⟨rest, s.queued.filter (· ≠ n)⟩ := by
        intro m
        simp only [IdSet.mem_filter, decide_eq_true_eq, hqueued, List.mem_cons]
        constructor
        · rintro ⟨heq | hm, hne⟩
          · exact absurd heq hne
          · exact hm
        · intro hm
          exact ⟨.inr hm, fun heq => hn (heq ▸ hm)⟩
      rw [step_of_cons hq, visit]
      simp only
      split
      · exact ⟨rfl, hagrees⟩
      · have hqueue := Marked.queue_foldl_push hagrees (f.graph.nodup_succ n)
        refine ⟨by rw [hqueue], ?_⟩
        intro m
        rw [(hagrees.foldl_push (f.graph.succ n)) m, hqueue]

end MarkedSweep

/-- After any number of visits the two searches are in the same state, and the marks are on the
nodes in the queue. -/
theorem tracks_after (f : Flow) (k : Nat) : (MarkedSweep.after f k).Tracks (f.after k) := by
  induction k with
  | zero => exact ⟨rfl, fun n => IdSet.mem_ofList⟩
  | succ k ih =>
      rw [MarkedSweep.after, Function.iterate_succ_apply', after_succ]
      exact ih.step (f.orderly_after k).queue_nodup

end LoanScope.Flow
