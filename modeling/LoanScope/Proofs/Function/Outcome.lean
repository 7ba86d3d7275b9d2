import LoanScope.Proofs.Function.Mentions
import Mathlib.Data.List.Find
import Mathlib.Data.List.Range

/-! When a fixture is a function, and what is wrong with it otherwise. The ids of its nodes are
looked at first, then its names in the order of reading, then its start, then its edges; the first
fault is told. -/

namespace LoanScope

/-- Numbers a type, if there is one. -/
def Body.addType? (b : Body) : Option CType → Option TypeRef × Body
  | none => (none, b)
  | some ty => (some (b.addType ty).1, (b.addType ty).2)

namespace Fixture

/-! ### Edges that lead nowhere -/

theorem build_plan_eq_error {f : Fixture} {kinds : List NodeKind} {e : GraphError} :
    (f.plan kinds).build = .error e ↔
      kinds.length ≤ f.start.toNat ∧ e = .invalidStart f.start.toNat ∨
        f.start.toNat < kinds.length ∧
          ∃ edge, f.edges.find? (Edge.leaves kinds.length) = some edge ∧ e = .invalidEdge edge := by
  obtain ⟨hkinds, hnone⟩ := Graph.Plan.foldl_addNode kinds .empty
  have hcount : (f.plan kinds).kinds = kinds := (Graph.Plan.foldl_addEdge f.edges _).1.trans hkinds
  have hedges : ∀ q, (f.plan kinds).edges.find? q = f.edges.find? q := by
    intro q
    refine (Graph.Plan.find?_foldl_addEdge q f.edges _).trans ?_
    rw [hnone]
    rfl
  rw [Graph.Plan.build_eq_error rfl, hcount, hedges]

/-! ### Ids -/

/-- The ids of the nodes. -/
def ids (f : Fixture) : List Nat := f.nodes.map (·.id.toNat)

/-- The ids of the nodes, ascending. -/
def sortedIds (f : Fixture) : List Nat := f.ids.mergeSort

/-- The ids are the positions of the nodes, in some order. -/
def Numbered (f : Fixture) : Prop := f.ids.Perm (List.range f.nodes.length)

theorem map_id_sortedNodes (f : Fixture) : f.sortedNodes.map (·.id.toNat) = f.sortedIds :=
  List.map_mergeSort fun m _ n _ => by simp [UInt32.le_iff_toNat_le]

theorem sortedIds_ascending (f : Fixture) : f.sortedIds.Pairwise (· ≤ ·) := by
  have h : f.sortedIds.Pairwise fun a b => decide (a ≤ b) = true := by
    refine List.pairwise_mergeSort ?_ ?_ f.ids
    · simpa using fun a b c => Nat.le_trans
    · simpa using Nat.le_total
  exact h.imp of_decide_eq_true

theorem length_sortedNodes (f : Fixture) : f.sortedNodes.length = f.nodes.length :=
  List.length_mergeSort _

theorem misplacedId?_eq_none_iff {i : Nat} {ids : List Nat} :
    misplacedId? i ids = none ↔ ids = List.range' i ids.length := by
  induction ids generalizing i with
  | nil => simp [misplacedId?]
  | cons id rest ih =>
      rw [misplacedId?, List.length_cons, List.range'_succ]
      by_cases hid : id = i
      · simp [hid, ih]
      · simp [hid]

theorem misplacedId?_eq_some_iff {i found : Nat} {ids : List Nat} :
    misplacedId? i ids = some found ↔
      ∃ k, (∀ j < k, ids[j]? = some (i + j)) ∧ ids[k]? = some found ∧ found ≠ i + k := by
  induction ids generalizing i with
  | nil => simp [misplacedId?]
  | cons id rest ih =>
      rw [misplacedId?]
      by_cases hid : id = i
      · rw [if_pos hid, ih]
        constructor
        · rintro ⟨k, hbefore, hfound, hne⟩
          refine ⟨k + 1, ?_, by simpa using hfound, by omega⟩
          intro j hj
          cases j with
          | zero => simp [hid]
          | succ j =>
              rw [List.getElem?_cons_succ, hbefore j (by omega)]
              congr 1
              omega
        · rintro ⟨k, hbefore, hfound, hne⟩
          cases k with
          | zero => simp_all
          | succ k =>
              refine ⟨k, ?_, by simpa using hfound, by omega⟩
              intro j hj
              have hnext := hbefore (j + 1) (by omega)
              rw [List.getElem?_cons_succ] at hnext
              rw [hnext]
              congr 1
              omega
      · rw [if_neg hid]
        constructor
        · rintro ⟨⟩
          exact ⟨0, by omega, rfl, hid⟩
        · rintro ⟨k, hbefore, hfound, hne⟩
          cases k with
          | zero => simpa using hfound
          | succ k =>
              have hfirst := hbefore 0 (by omega)
              simp at hfirst
              exact absurd hfirst hid

/-- Ids that are all different and below their number are their positions once sorted. -/
theorem misplacedId?_sortedIds {f : Fixture} :
    misplacedId? 0 f.sortedIds = none ↔ f.Numbered := by
  have hperm : f.sortedIds.Perm f.ids := List.mergeSort_perm _ _
  have hlength : f.sortedIds.length = f.nodes.length := by simp [sortedIds, ids]
  rw [misplacedId?_eq_none_iff, hlength, ← List.range_eq_range']
  constructor
  · intro h
    rw [Numbered, ← h]
    exact hperm.symm
  · intro h
    refine (hperm.trans h).eq_of_pairwise (fun a b _ _ => Nat.le_antisymm) ?_ ?_
    · exact f.sortedIds_ascending
    · exact List.pairwise_lt_range.imp Nat.le_of_lt

/-! ### The stages of binding -/

/-- Fails unless the ids of the nodes are their positions. -/
def checkIds (f : Fixture) : Except FixtureError Unit :=
  match misplacedId? 0 f.sortedIds with
  | some found => .error (.nodeIds f.nodes.length found)
  | none => .ok ()

def boundParams (f : Fixture) (file : FileId) : List Decl × LoanScope.Body :=
  Param.bindList file .empty f.params

/-- The return type is numbered after the parameters. -/
def boundReturn (f : Fixture) (file : FileId) : Option TypeRef × LoanScope.Body :=
  (f.boundParams file).2.addType? f.returnTy

def boundNodes (f : Fixture) (file : FileId) :
    Except FixtureError (List LoanScope.Node × LoanScope.Body) :=
  Node.bindList file (Scope.of (f.params.map Param.name)) (f.boundReturn file).2 f.sortedNodes

/-- The function with bound nodes, if its graph is one. -/
def withNodes (f : Fixture) (file : FileId) (bound : List LoanScope.Node × LoanScope.Body) :
    Except FixtureError Function :=
  ((f.plan (bound.1.map (·.step.kind))).build.mapError .graph).map fun graph =>
    { name := f.name, file, params := (f.boundParams file).1, returnTy := (f.boundReturn file).1
      nodes := bound.1, graph, body := bound.2, names := .ofList f.names }

theorem toFunction_eq (f : Fixture) (file : FileId) :
    f.toFunction file = f.checkIds >>= fun _ => f.boundNodes file >>= f.withNodes file := by
  have hscope : (f.boundParams file).1.reverse.map Decl.variable =
      Scope.of (f.params.map Param.name) := by
    rw [List.map_reverse, boundParams, (Param.bindList_spec file f.params .empty).1]
    rfl
  rw [toFunction, checkIds, map_id_sortedNodes, length_sortedNodes]
  cases misplacedId? 0 f.sortedIds with
  | some found => rfl
  | none =>
      change _ = f.boundNodes file >>= f.withNodes file
      rw [boundNodes, ← hscope]
      cases hreturn : f.returnTy
      all_goals
        simp only [boundReturn, hreturn, Body.addType?]
        refine congrArg (Node.bindList _ _ _ _ >>= ·) (funext fun bound => ?_)
        cases hgraph : (f.plan (bound.1.map (·.step.kind))).build <;>
          simp [withNodes, boundReturn, hreturn, Body.addType?, hgraph, Except.mapError, Except.map,
            boundParams]

theorem checkIds_eq_ok {f : Fixture} :
    f.checkIds = .ok () ↔ f.Numbered := by
  rw [← misplacedId?_sortedIds, checkIds]
  cases misplacedId? 0 f.sortedIds <;> simp

theorem withNodes_eq_error {f : Fixture} {file : FileId}
    {bound : List LoanScope.Node × LoanScope.Body} {e : FixtureError} :
    f.withNodes file bound = .error e ↔
      ∃ g, (f.plan (bound.1.map (·.step.kind))).build = .error g ∧ e = .graph g := by
  rw [withNodes, map_eq_error]
  cases (f.plan (bound.1.map (·.step.kind))).build <;> simp [Except.mapError, eq_comm]

/-- Declarations in a row are numbered in a row. -/
theorem resolveFrom_declares (names xs : List String) (ms : List (Mention String)) :
    resolveFrom names (xs.map .declare ++ ms) =
      (resolveFrom (names ++ xs) ms).map ((variablesFrom names.length xs).map .declare ++ ·) := by
  induction xs generalizing names with
  | nil =>
      rw [List.map_nil, List.nil_append, List.append_nil]
      cases resolveFrom names ms <;> rfl
  | cons x rest ih =>
      rw [List.map_cons, List.cons_append, resolveFrom, ih, List.append_assoc,
        List.singleton_append, List.length_append]
      cases resolveFrom (names ++ x :: rest) ms <;> rfl

theorem size_decls_boundReturn (f : Fixture) (file : FileId) :
    (f.boundReturn file).2.decls.size = (f.params.map Param.name).length := by
  have hsize := (Param.bindList_spec file f.params .empty).2
  rw [boundReturn, boundParams]
  cases f.returnTy <;> simpa [Body.addType?, LoanScope.Body.empty] using hsize

/-- Binding looks up all names of a fixture in the order of reading. -/
theorem map_mentions_boundNodes {f : Fixture} (file : FileId)
    (hids : f.Numbered) :
    (f.boundNodes file).map (fun bound =>
        ((f.boundParams file).1.map Decl.variable).map .declare ++
          LoanScope.Node.listMentions 0 bound.1) =
      resolveFrom [] f.mentions := by
  have hnodes := Node.map_mentions_bindList file rfl (f.size_decls_boundReturn file)
    (map_id_sortedNodes f ▸ misplacedId?_sortedIds.mpr hids)
  rw [mentions, resolveFrom_declares, List.nil_append, ← hnodes, boundNodes, boundParams,
    (Param.bindList_spec file f.params .empty).1]
  cases Node.bindList file (Scope.of (f.params.map Param.name))
    (f.boundReturn file).2 f.sortedNodes <;> rfl

theorem boundNodes_eq_error {f : Fixture} {file : FileId}
    (hids : f.Numbered) {e : FixtureError} :
    f.boundNodes file = .error e ↔
      ∃ x n, e = .unresolvedName x n ∧ Mention.FirstUnresolved [] f.mentions x n := by
  have h := resolveFrom_eq_error [] f.mentions e
  rw [Mention.declared_nil, ← map_mentions_boundNodes file hids, map_eq_error] at h
  exact h

theorem exists_boundNodes_eq_ok {f : Fixture} {file : FileId}
    (hids : f.Numbered) :
    (∃ bound, f.boundNodes file = .ok bound) ↔ Mention.Resolved f.mentions := by
  rw [Mention.Resolved, ← exists_resolveFrom_eq_ok, Mention.declared_nil,
    ← map_mentions_boundNodes file hids]
  cases f.boundNodes file <;> simp [Except.map]

theorem length_boundNodes {f : Fixture} {file : FileId}
    {bound : List LoanScope.Node × LoanScope.Body} (h : f.boundNodes file = .ok bound) :
    bound.1.length = f.nodes.length :=
  (Node.bindList_boundTo rfl (f.size_decls_boundReturn file) h).length_eq.trans f.length_sortedNodes

theorem mem_edges {f : Fixture} {e : Edge} :
    e ∈ f.edges ↔ ∃ node ∈ f.nodes, ∃ m ∈ node.succ, (node.id.toNat, m.toNat) = e := by
  simp [edges, sortedNodes]

/-- If the ids of nodes are their positions, an edge can leave the graph only by its target. -/
theorem source_lt {f : Fixture} (hids : f.Numbered) {e : Edge}
    (he : e ∈ f.edges) : e.1 < f.nodes.length := by
  obtain ⟨node, hnode, m, -, rfl⟩ := mem_edges.mp he
  have hid : node.id.toNat ∈ f.ids := List.mem_map_of_mem hnode
  simpa using hids.mem_iff.mp hid

/-- The first edge that leads to no node, by ascending source and then in the order given. -/
def FirstOutside (f : Fixture) (e : Edge) : Prop :=
  ∃ before after, f.edges = before ++ e :: after ∧ (∀ a ∈ before, a.2 < f.nodes.length) ∧
    f.nodes.length ≤ e.2

theorem find?_leaves_eq_some {f : Fixture} (hids : f.Numbered) {e : Edge} :
    f.edges.find? (Edge.leaves f.nodes.length) = some e ↔ f.FirstOutside e := by
  have hleaves : ∀ a ∈ f.edges, Edge.leaves f.nodes.length a = decide (f.nodes.length ≤ a.2) := by
    intro a ha
    rw [Bool.eq_iff_iff]
    simp [Edge.leaves, source_lt hids ha]
  rw [List.find?_congr hleaves, List.find?_eq_some_iff_append, FirstOutside]
  simp only [Bool.not_eq_eq_eq_not, Bool.not_true, decide_eq_true_eq,
    decide_eq_false_iff_not, Nat.not_le]
  constructor
  · rintro ⟨he, before, after, hedges, hbefore⟩
    exact ⟨before, after, hedges, hbefore, he⟩
  · rintro ⟨before, after, hedges, hbefore, he⟩
    exact ⟨he, before, after, hedges, hbefore⟩

/-! ### The outcome -/

/-- Every edge leads to a node, and the start is one. -/
structure Closed (f : Fixture) : Prop where
  start_lt : f.start.toNat < f.nodes.length
  succ_lt : ∀ node ∈ f.nodes, ∀ m ∈ node.succ, m.toNat < f.nodes.length

/-- What is wrong with a fixture, by the first of its faults. -/
inductive Fails (f : Fixture) : FixtureError → Prop where
  /-- The ascending ids are their positions up to `found`, which is not. -/
  | nodeIds {k found} (hbefore : ∀ j < k, f.sortedIds[j]? = some j)
      (hfound : f.sortedIds[k]? = some found) (hne : found ≠ k) :
      Fails f (.nodeIds f.nodes.length found)
  | unresolvedName {x n} (hids : f.Numbered) (hx : Mention.FirstUnresolved [] f.mentions x n) :
      Fails f (.unresolvedName x n)
  | invalidStart (hids : f.Numbered) (hnames : Mention.Resolved f.mentions)
      (hstart : f.nodes.length ≤ f.start.toNat) : Fails f (.graph (.invalidStart f.start.toNat))
  | invalidEdge {e} (hids : f.Numbered) (hnames : Mention.Resolved f.mentions)
      (hstart : f.start.toNat < f.nodes.length) (he : f.FirstOutside e) :
      Fails f (.graph (.invalidEdge e))

theorem checkIds_eq_error {f : Fixture} {e : FixtureError} :
    f.checkIds = .error e ↔
      ∃ k found, (∀ j < k, f.sortedIds[j]? = some j) ∧ f.sortedIds[k]? = some found ∧ found ≠ k ∧
        e = .nodeIds f.nodes.length found := by
  have hsome : ∀ found, misplacedId? 0 f.sortedIds = some found ↔
      ∃ k, (∀ j < k, f.sortedIds[j]? = some j) ∧ f.sortedIds[k]? = some found ∧ found ≠ k := by
    intro found
    simpa using @misplacedId?_eq_some_iff 0 found f.sortedIds
  have herror : f.checkIds = .error e ↔
      ∃ found, misplacedId? 0 f.sortedIds = some found ∧ e = .nodeIds f.nodes.length found := by
    rw [checkIds]
    cases misplacedId? 0 f.sortedIds <;> simp [eq_comm]
  rw [herror]
  constructor
  · rintro ⟨found, hfound, rfl⟩
    obtain ⟨k, hbefore, hk, hne⟩ := (hsome found).mp hfound
    exact ⟨k, found, hbefore, hk, hne, rfl⟩
  · rintro ⟨k, found, hbefore, hk, hne, rfl⟩
    exact ⟨found, (hsome found).mpr ⟨k, hbefore, hk, hne⟩, rfl⟩

theorem withNodes_eq_error_iff {f : Fixture} {file : FileId}
    {bound : List LoanScope.Node × LoanScope.Body} (hids : f.Numbered)
    (hbound : f.boundNodes file = .ok bound) {e : FixtureError} :
    f.withNodes file bound = .error e ↔
      f.nodes.length ≤ f.start.toNat ∧ e = .graph (.invalidStart f.start.toNat) ∨
        f.start.toNat < f.nodes.length ∧ ∃ edge, f.FirstOutside edge ∧
          e = .graph (.invalidEdge edge) := by
  have hcount : (bound.1.map (·.step.kind)).length = f.nodes.length := by
    rw [List.length_map, length_boundNodes hbound]
  simp only [withNodes_eq_error, build_plan_eq_error, hcount, find?_leaves_eq_some hids]
  constructor
  · rintro ⟨g, (⟨hstart, rfl⟩ | ⟨hstart, edge, hedge, rfl⟩), rfl⟩
    · exact .inl ⟨hstart, rfl⟩
    · exact .inr ⟨hstart, edge, hedge, rfl⟩
  · rintro (⟨hstart, rfl⟩ | ⟨hstart, edge, hedge, rfl⟩)
    · exact ⟨_, .inl ⟨hstart, rfl⟩, rfl⟩
    · exact ⟨_, .inr ⟨hstart, edge, hedge, rfl⟩, rfl⟩

/-- A fixture is no function exactly if something is wrong with it. -/
theorem toFunction_eq_error {f : Fixture} {file : FileId} {e : FixtureError} :
    f.toFunction file = .error e ↔ f.Fails e := by
  rw [toFunction_eq, bind_eq_error]
  constructor
  · rintro (h | ⟨⟨⟩, hok, h⟩)
    · obtain ⟨k, found, hbefore, hfound, hne, rfl⟩ := checkIds_eq_error.mp h
      exact .nodeIds hbefore hfound hne
    · have hids := checkIds_eq_ok.mp hok
      rcases bind_eq_error.mp h with h | ⟨bound, hbound, h⟩
      · obtain ⟨x, n, rfl, hx⟩ := (boundNodes_eq_error hids).mp h
        exact .unresolvedName hids hx
      · have hnames := (exists_boundNodes_eq_ok hids).mp ⟨bound, hbound⟩
        rcases (withNodes_eq_error_iff hids hbound).mp h with ⟨hstart, rfl⟩
          | ⟨hstart, edge, hedge, rfl⟩
        · exact .invalidStart hids hnames hstart
        · exact .invalidEdge hids hnames hstart hedge
  · intro h
    cases h with
    | nodeIds hbefore hfound hne =>
        exact .inl (checkIds_eq_error.mpr ⟨_, _, hbefore, hfound, hne, rfl⟩)
    | unresolvedName hids hx =>
        refine .inr ⟨(), checkIds_eq_ok.mpr hids, bind_eq_error.mpr (.inl ?_)⟩
        exact (boundNodes_eq_error hids).mpr ⟨_, _, rfl, hx⟩
    | invalidStart hids hnames hstart =>
        obtain ⟨bound, hbound⟩ := (@exists_boundNodes_eq_ok f file hids).mpr hnames
        refine .inr ⟨(), checkIds_eq_ok.mpr hids, bind_eq_error.mpr (.inr ⟨bound, hbound, ?_⟩)⟩
        exact (withNodes_eq_error_iff hids hbound).mpr (.inl ⟨hstart, rfl⟩)
    | invalidEdge hids hnames hstart he =>
        obtain ⟨bound, hbound⟩ := (@exists_boundNodes_eq_ok f file hids).mpr hnames
        refine .inr ⟨(), checkIds_eq_ok.mpr hids, bind_eq_error.mpr (.inr ⟨bound, hbound, ?_⟩)⟩
        exact (withNodes_eq_error_iff hids hbound).mpr (.inr ⟨hstart, _, he, rfl⟩)

theorem toFunction_eq_ok {f : Fixture} {file : FileId} {function : Function} :
    f.toFunction file = .ok function ↔
      f.Numbered ∧ ∃ bound, f.boundNodes file = .ok bound ∧
        f.withNodes file bound = .ok function := by
  rw [toFunction_eq, bind_eq_ok, ← checkIds_eq_ok]
  simp only [bind_eq_ok]
  constructor
  · rintro ⟨⟨⟩, hids, h⟩
    exact ⟨hids, h⟩
  · rintro ⟨hids, h⟩
    exact ⟨(), hids, h⟩

theorem boundTo_of_toFunction {f : Fixture} {file : FileId} {function : Function}
    (h : f.toFunction file = .ok function) : Mention.BoundTo f.mentions function.mentions := by
  obtain ⟨hids, bound, hbound, hfunction⟩ := toFunction_eq_ok.mp h
  obtain ⟨graph, -, rfl⟩ := map_eq_ok.mp hfunction
  apply boundTo_of_resolveFrom
  rw [← map_mentions_boundNodes file hids, hbound]
  rfl

theorem closed_of_toFunction {f : Fixture} {file : FileId} {function : Function}
    (h : f.toFunction file = .ok function) : f.Closed := by
  have hof := toFunction_functionOf h
  have hsize : function.graph.size = f.nodes.length := by
    rw [hof.size, hof.nodes.length_eq, length_sortedNodes]
  refine ⟨?_, ?_⟩
  · rw [← hof.start, ← hsize]
    exact function.graph.start_lt
  · intro node hnode m hm
    have hedge : (node.id.toNat, m.toNat) ∈ f.edges := mem_edges.mpr ⟨node, hnode, m, hm, rfl⟩
    rw [← hsize]
    exact (function.graph.edges_lt _ ((hof.edges _).mpr hedge)).2

/-- With nothing wrong in it a fixture is a function. -/
theorem not_fails {f : Fixture} (hids : f.Numbered) (hnames : Mention.Resolved f.mentions)
    (hclosed : f.Closed) (e : FixtureError) : ¬ f.Fails e := by
  intro h
  cases h with
  | nodeIds hbefore hfound hne =>
      have hok := checkIds_eq_ok.mpr hids
      simp [checkIds_eq_error.mpr ⟨_, _, hbefore, hfound, hne, rfl⟩] at hok
  | unresolvedName _ hx =>
      obtain ⟨before, after, hsplit, -, hnot⟩ := hx
      exact hnot (hnames before _ _ after hsplit)
  | invalidStart _ _ hstart => exact absurd hclosed.start_lt (Nat.not_lt.mpr hstart)
  | invalidEdge _ _ _ he =>
      obtain ⟨before, after, hedges, -, hout⟩ := he
      obtain ⟨node, hnode, m, hm, rfl⟩ := mem_edges.mp (hedges ▸ List.mem_append_cons_self)
      exact absurd (hclosed.succ_lt node hnode m hm) (Nat.not_lt.mpr hout)

/-- A fixture is a function if and only if the ids of its nodes are their positions, every variable
is declared before it is used, and its start and edges lead to nodes. Every use is then of the last
declaration of its name before it. Otherwise the first fault is told, and it is never that there is
no start. -/
theorem toFunction_outcome (f : Fixture) (file : FileId) :
    ((∃ function, f.toFunction file = .ok function) ↔
      f.Numbered ∧ Mention.Resolved f.mentions ∧ f.Closed) ∧
    (∀ function, f.toFunction file = .ok function → Mention.BoundTo f.mentions function.mentions) ∧
    (∀ e, f.toFunction file = .error e ↔ f.Fails e) ∧
    f.toFunction file ≠ .error (.graph .missingStart) := by
  refine ⟨⟨?_, ?_⟩, fun function => boundTo_of_toFunction, fun e => toFunction_eq_error, ?_⟩
  · rintro ⟨function, h⟩
    obtain ⟨hids, bound, hbound, -⟩ := toFunction_eq_ok.mp h
    exact ⟨hids, (exists_boundNodes_eq_ok hids).mp ⟨bound, hbound⟩, closed_of_toFunction h⟩
  · rintro ⟨hids, hnames, hclosed⟩
    cases h : f.toFunction file with
    | ok function => exact ⟨function, rfl⟩
    | error e => exact absurd (toFunction_eq_error.mp h) (not_fails hids hnames hclosed e)
  · intro h
    cases toFunction_eq_error.mp h

end Fixture

end LoanScope
