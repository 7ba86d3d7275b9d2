import LoanScope.Config
import LoanScope.Graph
import LoanScope.IdSet

/-! Loans in scope at each node of a graph: a forward flow, solved with a queue of nodes.

Under union the sets only grow and the queue drains. Under intersection a node ignores predecessors
that have no result yet, and a start node with incoming edges begins with the empty set: then sets
may grow and shrink in turn, and there are graphs on which the queue never drains. -/

namespace LoanScope

/-- A flow of loans `0, ..., loans - 1` over a graph. Node `n` drops the loans that do not hold
there on entry, then those it kills, and adds those it makes. -/
structure Flow where
  graph : Graph
  policy : JoinPolicy
  loans : Nat
  holds : Nat → NodeId → Bool
  kills : NodeId → IdSet
  makes : NodeId → IdSet

namespace Flow

/-- The state of the search: nodes to visit, what holds on entry to each node, what leaves each node
visited so far, and the number of visits. -/
structure Sweep where
  queue : List NodeId
  entry : Array IdSet
  exit : Array (Option IdSet)
  visits : Nat

def Sweep.exitOf (s : Sweep) (n : NodeId) : Option IdSet := s.exit.getD n none

def Sweep.entryOf (s : Sweep) (n : NodeId) : IdSet := s.entry.getD n ∅

def start (f : Flow) : Sweep where
  queue := f.graph.reversePostorder
  entry := Array.replicate f.graph.size ∅
  exit := Array.replicate f.graph.size none
  visits := 0

/-- Joins sets by the policy; no sets join to the empty set. -/
def join (f : Flow) (sets : List IdSet) : IdSet :=
  match f.policy with
  | .union => sets.foldl .union ∅
  | .intersection =>
      match sets with
      | [] => ∅
      | s :: rest => rest.foldl .inter s

/-- What reaches a node, from the predecessors visited so far. -/
def arriving (f : Flow) (s : Sweep) (n : NodeId) : IdSet :=
  (f.join ((f.graph.pred n).filterMap s.exitOf)).filter (f.holds · n)

/-- What leaves a node that a set of loans enters. -/
def leaving (f : Flow) (n : NodeId) (entry : IdSet) : IdSet :=
  (entry.diff (f.kills n)).union (f.makes n)

/-- Visits a node taken off the queue. If what leaves it changed, its successors are queued
again. -/
def visit (f : Flow) (s : Sweep) (n : NodeId) (rest : List NodeId) : Sweep :=
  let entry := f.arriving s n
  let exit := f.leaving n entry
  if s.exitOf n = some exit then
    { s with queue := rest, entry := s.entry.setIfInBounds n entry, visits := s.visits + 1 }
  else
    { queue := rest ++ (f.graph.succ n).filter (· ∉ rest)
      entry := s.entry.setIfInBounds n entry
      exit := s.exit.setIfInBounds n (some exit)
      visits := s.visits + 1 }

/-- Visits nodes until the queue is empty, unless the fuel runs out first. -/
def run (f : Flow) : Nat → Sweep → Option Sweep
  | fuel, s =>
      match fuel, s.queue with
      | _, [] => some s
      | 0, _ :: _ => none
      | fuel + 1, n :: rest => f.run fuel (f.visit s n rest)

/-- The number of different queues and leaving sets. A search that goes on for longer is in a state
that it was in before, and goes on forever. -/
def stateBound (f : Flow) : Nat :=
  Nat.pow (f.graph.size + 1) f.graph.size * Nat.pow (Nat.pow 2 f.loans + 1) f.graph.size

/-- The state in which the queue is empty, if it ever is. -/
def settle (f : Flow) : Option Sweep := f.run f.stateBound f.start

end Flow

end LoanScope
