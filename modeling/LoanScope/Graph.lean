/-! Control-flow graphs. A graph is its node kinds, its start and its edges in the order of their
first mention; successors and predecessors are views of the edges. Graphs come from plans, which may
still name nodes that do not exist. -/

namespace LoanScope

/-- A node of a graph, by its position. -/
abbrev NodeId := Nat

inductive NodeKind where
  | start | finish | instructions | branch | loop | ret | switch | jump
deriving DecidableEq, Repr

namespace NodeKind

def name : NodeKind → String
  | start => "start"
  | finish => "end"
  | instructions => "inst_list"
  | branch => "if"
  | loop => "loop"
  | ret => "return"
  | switch => "switch"
  | jump => "jump"

def all : List NodeKind := [start, finish, instructions, branch, loop, ret, switch, jump]

def ofName? (s : String) : Option NodeKind := all.find? (·.name = s)

end NodeKind

abbrev Edge := NodeId × NodeId

structure Graph where
  kinds : List NodeKind
  start : NodeId
  edges : List Edge
  start_lt : start < kinds.length
  edges_lt : ∀ e ∈ edges, e.1 < kinds.length ∧ e.2 < kinds.length
  edges_nodup : edges.Nodup
deriving DecidableEq

namespace Graph

def size (g : Graph) : Nat := g.kinds.length

/-- All nodes in order. -/
def nodes (g : Graph) : List NodeId := List.range g.size

/-- The first end node. -/
def finish? (g : Graph) : Option NodeId := g.kinds.findIdx? (· = .finish)

def succ (g : Graph) (n : NodeId) : List NodeId :=
  g.edges.filterMap fun e => if e.1 = n then some e.2 else none

def pred (g : Graph) (n : NodeId) : List NodeId :=
  g.edges.filterMap fun e => if e.2 = n then some e.1 else none

theorem mem_succ {g : Graph} {m n : NodeId} : n ∈ g.succ m ↔ (m, n) ∈ g.edges := by
  simp only [succ, List.mem_filterMap, Option.ite_none_right_eq_some, Option.some.injEq]
  constructor
  · rintro ⟨⟨a, b⟩, he, rfl, rfl⟩; exact he
  · exact fun h => ⟨(m, n), h, rfl, rfl⟩

theorem mem_pred {g : Graph} {m n : NodeId} : m ∈ g.pred n ↔ (m, n) ∈ g.edges := by
  simp only [pred, List.mem_filterMap, Option.ite_none_right_eq_some, Option.some.injEq]
  constructor
  · rintro ⟨⟨a, b⟩, he, rfl, rfl⟩; exact he
  · exact fun h => ⟨(m, n), h, rfl, rfl⟩

end Graph

inductive GraphError where
  | missingStart
  | invalidStart (node : NodeId)
  | invalidEdge (edge : Edge)
deriving DecidableEq, Repr

def GraphError.message : GraphError → String
  | missingStart => "control-flow graph has no start node"
  | invalidStart n => s!"start node {n} is not part of the graph"
  | invalidEdge e => s!"edge {e.1} -> {e.2} references a node outside the graph"

/-- A graph under construction. -/
structure Graph.Plan where
  kinds : List NodeKind
  start? : Option NodeId
  edges : List Edge
  edges_nodup : edges.Nodup

namespace Graph.Plan

def empty : Plan := ⟨[], none, [], .nil⟩

/-- Adds a node at the end. The first start node becomes the start, unless one is chosen. -/
def addNode (p : Plan) (kind : NodeKind) : Plan :=
  { p with
    kinds := p.kinds ++ [kind]
    start? := if kind = .start then p.start?.or (some p.kinds.length) else p.start? }

/-- Adds an edge, if it is new. -/
def addEdge (p : Plan) (e : Edge) : Plan :=
  if h : e ∈ p.edges then p
  else
    { p with
      edges := p.edges ++ [e]
      edges_nodup := List.nodup_append.mpr ⟨p.edges_nodup, by simp, by
        intro a ha b hb
        simp only [List.mem_singleton] at hb
        exact fun hab => h (hb ▸ hab ▸ ha)⟩ }

/-- Adds the edges from each node to the next. -/
def addPath (p : Plan) (nodes : List NodeId) : Plan :=
  (nodes.zip nodes.tail).foldl addEdge p

def setStart (p : Plan) (n : NodeId) : Plan := { p with start? := some n }

/-- Whether both ends of an edge are nodes. -/
def inside (p : Plan) (e : Edge) : Bool := e.1 < p.kinds.length && e.2 < p.kinds.length

/-- The finished graph, or the first thing that is wrong with it: its start, then its edges in
order. -/
def build (p : Plan) : Except GraphError Graph :=
  match p.start? with
  | none => .error .missingStart
  | some start =>
      if hs : start < p.kinds.length then
        match he : p.edges.find? (fun e => !p.inside e) with
        | some e => .error (.invalidEdge e)
        | none =>
            .ok
              { kinds := p.kinds, start, edges := p.edges, start_lt := hs
                edges_lt := by
                  intro e h
                  have hin := List.find?_eq_none.mp he e h
                  simpa [inside] using hin
                edges_nodup := p.edges_nodup }
      else .error (.invalidStart start)

end Graph.Plan

/-! ### Reverse postorder -/

namespace Graph

/-- A depth-first search: the nodes met, and the nodes done, the last one first. -/
structure Search where
  seen : List NodeId
  done : List NodeId

/-- Searches below a node unless it was met; the fuel bounds the depth. -/
def visit (g : Graph) : Nat → Search → NodeId → Search
  | 0, s, _ => s
  | fuel + 1, s, n =>
      if n ∈ s.seen then s
      else
        let below := (g.succ n).foldl (g.visit fuel) { s with seen := n :: s.seen }
        { below with done := n :: below.done }

/-- The nodes reachable from the start, each before the nodes it leads to unless they lead back. No
path of new nodes is longer than the graph. -/
def reversePostorder (g : Graph) : List NodeId :=
  (g.visit g.size ⟨[], []⟩ g.start).done

end Graph

end LoanScope
