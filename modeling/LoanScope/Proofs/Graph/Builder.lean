import LoanScope.Proofs.Data.Except
import LoanScope.Proofs.Graph.Plan

/-! Graphs as they are built step by step. The builder remembers the first end node as nodes are
added, and the neighbours of a node are listed as the edges are entered one after the other. What is
built this way agrees with the views of the graph that a plan builds. -/

namespace LoanScope.Graph

/-- A node of a finished graph with its neighbours. -/
structure Vertex where
  id : NodeId
  kind : NodeKind
  succ : List NodeId
  pred : List NodeId
deriving DecidableEq

/-- A finished graph, node by node. -/
structure Layout where
  vertices : List Vertex
  start : NodeId
  finish? : Option NodeId
deriving DecidableEq

/-- A graph under construction, with the start and the end that it has so far. -/
structure Builder where
  kinds : List NodeKind
  edges : List Edge
  start? : Option NodeId
  finish? : Option NodeId
deriving DecidableEq

namespace Builder

def empty : Builder := ⟨[], [], none, none⟩

/-- Adds a node at the end. The first start node and the first end node are remembered. -/
def addNode (b : Builder) (kind : NodeKind) : Builder :=
  let id := b.kinds.length
  let kinds := b.kinds ++ [kind]
  if kind = .start ∧ b.start? = none then { b with kinds, start? := some id }
  else if kind = .finish ∧ b.finish? = none then { b with kinds, finish? := some id }
  else { b with kinds }

def addEdge (b : Builder) (e : Edge) : Builder :=
  if b.edges.contains e then b else { b with edges := b.edges ++ [e] }

def addPath (b : Builder) (nodes : List NodeId) : Builder :=
  (nodes.zip nodes.tail).foldl addEdge b

def setStart (b : Builder) (n : NodeId) : Builder := { b with start? := some n }

/-- Lists an edge at both of its ends. -/
def enter (vertices : List Vertex) (e : Edge) : Except GraphError (List Vertex) :=
  if vertices.length ≤ e.1 ∨ vertices.length ≤ e.2 then .error (.invalidEdge e)
  else
    let left := vertices.modify e.1 fun v => { v with succ := v.succ ++ [e.2] }
    .ok (left.modify e.2 fun v => { v with pred := v.pred ++ [e.1] })

/-- Enters the edges one after the other into nodes without neighbours. -/
def build (b : Builder) : Except GraphError Layout :=
  match b.start? with
  | none => .error .missingStart
  | some start =>
      if b.kinds.length ≤ start then .error (.invalidStart start)
      else do
        let vertices ← b.edges.foldlM enter (b.kinds.mapIdx fun i kind => ⟨i, kind, [], []⟩)
        .ok ⟨vertices, start, b.finish?⟩

end Builder

/-- The nodes of a graph with its successors and predecessors. -/
def layout (g : Graph) : Layout :=
  ⟨g.kinds.mapIdx fun i kind => ⟨i, kind, g.succ i, g.pred i⟩, g.start, g.finish?⟩

/-- What the builder of a plan remembers. -/
def Plan.builder (p : Plan) : Builder :=
  ⟨p.kinds, p.edges, p.start?, p.kinds.findIdx? (· = .finish)⟩

/-! ### Calls -/

namespace Plan

theorem builder_addNode (p : Plan) (kind : NodeKind) :
    (p.addNode kind).builder = p.builder.addNode kind := by
  have hfinish : (p.kinds ++ [kind]).findIdx? (· = .finish) =
      (p.kinds.findIdx? (· = .finish)).or
        (if kind = .finish then some p.kinds.length else none) := by
    rw [List.findIdx?_append]
    cases kind <;> simp
  rw [builder, addNode, Builder.addNode]
  simp only [hfinish]
  cases kind <;> cases hstart : p.start? <;> cases hend : p.kinds.findIdx? (· = .finish) <;>
    simp [builder, hstart, hend]

theorem builder_addEdge (p : Plan) (e : Edge) : (p.addEdge e).builder = p.builder.addEdge e := by
  by_cases he : e ∈ p.edges <;> simp [addEdge, Builder.addEdge, builder, he]

theorem builder_foldl_addEdge (edges : List Edge) (p : Plan) :
    (edges.foldl addEdge p).builder = edges.foldl Builder.addEdge p.builder := by
  induction edges generalizing p with
  | nil => rfl
  | cons e rest ih => rw [List.foldl_cons, ih, builder_addEdge, List.foldl_cons]

end Plan

/-! ### Entering edges -/

/-- Nodes with the neighbours that some edges give them. -/
def vertices (kinds : List NodeKind) (edges : List Edge) : List Vertex :=
  kinds.mapIdx fun i kind =>
    ⟨i, kind, edges.filterMap fun e => if e.1 = i then some e.2 else none,
      edges.filterMap fun e => if e.2 = i then some e.1 else none⟩

theorem length_vertices (kinds : List NodeKind) (edges : List Edge) :
    (vertices kinds edges).length = kinds.length := by
  simp [vertices]

/-- Entering an edge extends the successors of its source and the predecessors of its target. -/
theorem enter_vertices {kinds : List NodeKind} {edges : List Edge} {e : Edge}
    (he : Edge.leaves kinds.length e = false) :
    Builder.enter (vertices kinds edges) e = .ok (vertices kinds (edges ++ [e])) := by
  have hinside : ¬ (kinds.length ≤ e.1 ∨ kinds.length ≤ e.2) := by
    simpa [Edge.leaves, not_or] using he
  rw [Builder.enter, length_vertices, if_neg hinside]
  refine congrArg Except.ok (List.ext_getElem? fun i => ?_)
  simp only [List.getElem?_modify, vertices, List.getElem?_mapIdx]
  cases kinds[i]? with
  | none => simp
  | some kind => by_cases hfrom : e.1 = i <;> by_cases hto : e.2 = i <;> simp [hfrom, hto]

theorem enter_of_leaves {kinds : List NodeKind} {edges : List Edge} {e : Edge}
    (he : Edge.leaves kinds.length e = true) :
    Builder.enter (vertices kinds edges) e = .error (.invalidEdge e) := by
  have houtside : kinds.length ≤ e.1 ∨ kinds.length ≤ e.2 := by
    simpa [Edge.leaves] using he
  rw [Builder.enter, length_vertices, if_pos houtside]

/-- If all edges stay inside, then entering them gives every node its neighbours. -/
theorem foldlM_enter {kinds : List NodeKind} {before edges : List Edge}
    (h : edges.find? (Edge.leaves kinds.length) = none) :
    edges.foldlM Builder.enter (vertices kinds before) =
      .ok (vertices kinds (before ++ edges)) := by
  induction edges generalizing before with
  | nil =>
      rw [List.append_nil]
      rfl
  | cons e rest ih =>
      rw [List.find?_cons] at h
      cases he : Edge.leaves kinds.length e with
      | true => simp [he] at h
      | false =>
          simp only [he] at h
          rw [List.foldlM_cons, enter_vertices he]
          refine (ih h).trans ?_
          rw [List.append_assoc, List.singleton_append]

/-- Otherwise the first edge that leads outside stops it. -/
theorem foldlM_enter_of_leaves {kinds : List NodeKind} {before edges : List Edge} {e : Edge}
    (h : edges.find? (Edge.leaves kinds.length) = some e) :
    edges.foldlM Builder.enter (vertices kinds before) = .error (.invalidEdge e) := by
  induction edges generalizing before with
  | nil => cases h
  | cons first rest ih =>
      rw [List.find?_cons] at h
      rw [List.foldlM_cons]
      cases hfirst : Edge.leaves kinds.length first with
      | true =>
          simp only [hfirst, Option.some.injEq] at h
          rw [enter_of_leaves hfirst, h]
          rfl
      | false =>
          simp only [hfirst] at h
          rw [enter_vertices hfirst]
          exact ih h

/-! ### Building -/

/-- A builder builds the graph of its plan, node by node. -/
theorem Plan.build_builder (p : Plan) : p.builder.build = p.build.map layout := by
  cases hstart : p.start? with
  | none =>
      rw [build_of_start?_eq_none hstart, Builder.build]
      simp [builder, hstart, Except.map]
  | some start =>
      have hempty : (p.kinds.mapIdx fun i kind => (⟨i, kind, [], []⟩ : Vertex)) =
          vertices p.kinds [] := rfl
      cases hbuild : p.build with
      | error e =>
          rcases (build_eq_error hstart).mp hbuild with ⟨hle, rfl⟩ | ⟨hlt, edge, hedge, rfl⟩
          · simp [Builder.build, builder, hstart, hle, Except.map]
          · simp only [Builder.build, builder, hstart, Nat.not_le.mpr hlt, if_false, hempty,
              foldlM_enter_of_leaves hedge, Except.map]
            rfl
      | ok g =>
          obtain ⟨hlt, hinside⟩ := (exists_build_eq_ok hstart).mp ⟨g, hbuild⟩
          obtain ⟨hkinds, hstart', hedges⟩ := build_eq_ok hbuild
          obtain rfl : start = g.start := Option.some.inj (hstart.symm.trans hstart')
          simp only [Builder.build, builder, hstart, Nat.not_le.mpr hlt, if_false, hempty,
            foldlM_enter hinside, Except.map, List.nil_append]
          rw [layout, finish?, ← hkinds, ← hedges]
          rfl

end LoanScope.Graph
