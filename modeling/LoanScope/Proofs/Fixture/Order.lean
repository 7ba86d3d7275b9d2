import LoanScope.Proofs.Check.Phases
import LoanScope.Proofs.Fixture.SameCode
import LoanScope.Proofs.Fixture.Soundness

/-! The order in which a fixture is written down. Nodes may come in any order, and the successors
and live names of a node in any order and repeatedly: under union the report is the same. -/

namespace LoanScope

/-! ### Functions -/

namespace Function

/-- Functions that differ only in the order of edges and live names. -/
structure Reordered (f g : Function) : Prop where
  name : g.name = f.name
  file : g.file = f.file
  params : g.params = f.params
  returnTy : g.returnTy = f.returnTy
  steps : g.nodes.map Node.step = f.nodes.map Node.step
  live : List.Forall₂ (fun m n => ∀ x, x ∈ m.liveIn ↔ x ∈ n.liveIn) f.nodes g.nodes
  start : g.graph.start = f.graph.start
  size : g.graph.size = f.graph.size
  edges : ∀ e, e ∈ g.graph.edges ↔ e ∈ f.graph.edges

variable {f g : Function}

theorem Reordered.sameCode (h : f.Reordered g) : f.SameCode g :=
  ⟨h.file, h.params, h.returnTy, h.steps⟩

theorem liveRegions_congr {facts : Facts} {live live' : List String}
    (h : ∀ x, x ∈ live ↔ x ∈ live') :
    facts.liveRegions live' = facts.liveRegions live := by
  simp only [Facts.liveRegions, h]

theorem nodesConstraints_congr {facts : Facts} {nodes nodes' : List Node}
    (h : List.Forall₂ (fun m n => ∀ x, x ∈ m.liveIn ↔ x ∈ n.liveIn) nodes nodes') (n : NodeId)
    (here : List NodeFacts) :
    facts.nodesConstraints n (nodes'.zip here) = facts.nodesConstraints n (nodes.zip here) := by
  induction h generalizing n here with
  | nil => rfl
  | cons hlive _ ih =>
      cases here with
      | nil => rfl
      | cons first rest =>
          simp only [List.zip_cons_cons, Facts.nodesConstraints, Facts.nodeConstraints,
            liveRegions_congr hlive, ih]

/-- Constraints ask which names are live, not in which order. -/
theorem Reordered.constraints (h : f.Reordered g) (facts : Facts) (config : Config) :
    facts.constraints config g = facts.constraints config f := by
  simp only [Facts.constraints, Facts.allConstraints, Facts.globalConstraints, Graph.nodes,
    nodesConstraints_congr h.live, h.size, h.start]

end Function

/-! ### Checks -/

namespace Check

variable {c d d' : Check} {f g : Function} {config : Config}

theorem buildConstraints_reordered (h : f.Reordered g)
    (hc : Check.start f config >>= Check.buildConstraints = .ok c) :
    c.function = f ∧ Check.start g config >>= Check.buildConstraints =
      .ok { c with function := g } := by
  obtain ⟨started, hstart, hbuild⟩ := bind_eq_ok.mp hc
  obtain ⟨facts, hfacts, hend⟩ := bind_eq_ok.mp hstart
  obtain ⟨cs, hcs, hlast⟩ := bind_eq_ok.mp hbuild
  cases hend
  cases hlast
  refine ⟨rfl, bind_eq_ok.mpr ⟨_, bind_eq_ok.mpr ⟨facts, h.sameCode.facts.trans hfacts, rfl⟩, ?_⟩⟩
  exact bind_eq_ok.mpr ⟨cs, (h.constraints _ _).trans hcs, rfl⟩

theorem Carries.withFunction {loan : Loan} {w : Nat → NodeId} {i k : Nat} :
    { c with function := g }.Carries loan w i k ↔ c.Carries loan w i k :=
  ⟨fun h => ⟨h.lt, h.origin, h.inRegion, h.notKilled⟩,
    fun h => ⟨h.lt, h.origin, h.inRegion, h.notKilled⟩⟩

/-- Under union, the loans in scope depend on the set of edges only. -/
theorem inScope_reordered (hfiled : c.facts.Filed) (hunion : c.config.joinPolicy = .union)
    (hg : c.function.Reordered g) (hd : c.borrowCheck = some d)
    (hd' : { c with function := g }.borrowCheck = some d') : d'.inScope = d.inScope := by
  have hlength : d'.inScope.length = d.inScope.length := by
    rw [(facts_of_borrowCheck hd).2, (facts_of_borrowCheck hd').2, hg.size]
  have hscope : ∀ n, d'.scopeAt n = d.scopeAt n := by
    intro n
    refine IdSet.ext fun l => ?_
    have hmem := @mem_scopeAt_union { c with function := g } hfiled hunion d' hd' n l
    rw [mem_scopeAt_union hfiled hunion hd, hmem]
    simp only [Carries.withFunction, Graph.Reaches, Graph.IsWalk, hg.edges, hg.start]
  refine List.ext_getElem hlength fun n hn' hn => ?_
  simpa [scopeAt, hn, hn'] using hscope n

theorem report_reordered (hfiled : c.facts.Filed) (hunion : c.config.joinPolicy = .union)
    (hg : c.function.Reordered g) (hd : c.borrowCheck = some d) :
    ∃ d', { c with function := g }.borrowCheck = some d' ∧ d'.report = d.report := by
  obtain ⟨d', hd'⟩ := @exists_borrowCheck_union { c with function := g } hfiled hunion
  refine ⟨d', hd', ?_⟩
  have hscope := inScope_reordered hfiled hunion hg hd hd'
  obtain ⟨s, -, rfl⟩ := eq_of_borrowCheck hd
  obtain ⟨s', -, rfl⟩ := eq_of_borrowCheck hd'
  simp only at hscope
  simp only [report, dump, hg.name, hscope]

end Check

/-! ### Fixtures -/

namespace Fixture

/-- Nodes that differ only in the order and the repeats of their successors and live names. -/
structure Node.Reordered (m n : Node) : Prop where
  id : n.id = m.id
  body : n.body = m.body
  span : n.span = m.span
  succ : ∀ s, s ∈ n.succ ↔ s ∈ m.succ
  liveIn : ∀ x, x ∈ n.liveIn ↔ x ∈ m.liveIn
  liveOut : ∀ x, x ∈ n.liveOut ↔ x ∈ m.liveOut

/-- Fixtures that differ only in the order in which they are written down. -/
structure Reordered (f g : Fixture) : Prop where
  name : g.name = f.name
  params : g.params = f.params
  returnTy : g.returnTy = f.returnTy
  start : g.start = f.start
  nodes : ∃ nodes, f.nodes.Perm nodes ∧ List.Forall₂ Node.Reordered nodes g.nodes

variable {f g : Fixture} {file : FileId}

theorem Node.Reordered.sameCode {m n : Node} (h : m.Reordered n) : m.SameCode n :=
  ⟨h.id, h.body, h.span⟩

theorem Reordered.sameCode (h : f.Reordered g) : f.SameCode g :=
  ⟨h.params, h.returnTy, NodesRelated.imp (fun _ _ hnode => hnode.sameCode) h.nodes⟩

theorem Reordered.mem_edges (h : f.Reordered g) {e : Edge} : e ∈ g.edges ↔ e ∈ f.edges := by
  obtain ⟨nodes, hperm, hnodes⟩ := h.nodes
  have hsame : (∃ n ∈ g.nodes, ∃ s ∈ n.succ, (n.id.toNat, s.toNat) = e) ↔
      ∃ n ∈ nodes, ∃ s ∈ n.succ, (n.id.toNat, s.toNat) = e := by
    generalize g.nodes = nodes' at hnodes
    clear hperm
    induction hnodes with
    | nil => simp
    | cons hnode _ ih =>
        simp only [List.mem_cons, exists_eq_or_imp, ih, hnode.id, hnode.succ]
  rw [Fixture.mem_edges, Fixture.mem_edges, hsame]
  simp only [hperm.mem_iff]

theorem Reordered.closed (h : f.Reordered g) (hclosed : f.Closed) : g.Closed := by
  have hlength := h.sameCode.length_nodes
  refine ⟨by rw [h.start, hlength]; exact hclosed.start_lt, ?_⟩
  intro node hnode s hs
  have hedge := h.mem_edges.mp (Fixture.mem_edges.mpr ⟨node, hnode, s, hs, rfl⟩)
  obtain ⟨node', hnode', s', hs', heq⟩ := Fixture.mem_edges.mp hedge
  rw [hlength, ← (Prod.mk.inj heq).2]
  exact hclosed.succ_lt node' hnode' s' hs'

/-- The function of a reordered fixture is the function reordered. -/
theorem Reordered.toFunction (h : f.Reordered g) {function : Function}
    (hf : f.toFunction file = .ok function) :
    ∃ function', g.toFunction file = .ok function' ∧ function.Reordered function' := by
  obtain ⟨function', hg⟩ := h.sameCode.exists_toFunction hf (h.closed (closed_of_toFunction hf))
  have hcode := h.sameCode.toFunction hf hg
  have hof := toFunction_functionOf hf
  have hof' := toFunction_functionOf hg
  have hids := (toFunction_eq_ok.mp hf).1
  have hnodes := h.sameCode.sortedNodes hids
    (fun _ _ hnode => Node.Reordered.sameCode hnode) h.nodes
  refine ⟨function', hg, ?_, hcode.file, hcode.params, hcode.returnTy, hcode.steps, ?_, ?_, ?_, ?_⟩
  · rw [name_of_toFunction hf, name_of_toFunction hg, h.name]
  · exact hof.nodes.forall₂_liveIn hof'.nodes (R := fun live live' => ∀ x, x ∈ live ↔ x ∈ live')
      (hnodes.imp fun _ _ hnode x => (hnode.liveIn x).symm)
  · rw [hof.start, hof'.start, h.start]
  · rw [hof.size, hof'.size]
    simpa using congrArg List.length hcode.steps
  · intro e
    rw [hof.edges, hof'.edges, h.mem_edges]

/-- Under union the report of a fixture does not depend on the order of its nodes, nor on the order
and the repeats of their successors and live names. -/
theorem check_reordered {config : Config} {report : Report} (hunion : config.joinPolicy = .union)
    (h : f.Reordered g) (hf : f.check file config = .ok report) :
    g.check file config = .ok report := by
  obtain ⟨c, d, hc, hd, rfl⟩ := inferred?_of_check hf
  have hinferred := inferred_of_inferred? hc
  obtain ⟨function, built, hfunction, hbuilt, rfl⟩ := inferred?_eq_some.mp hc
  obtain ⟨function', hfunction', hsame⟩ := h.toFunction hfunction
  obtain ⟨hown, hbuilt'⟩ := Check.buildConstraints_reordered hsame hbuilt
  have hfiled := Function.facts_filed hinferred.facts_eq
  have hpolicy : built.infer.config.joinPolicy = .union := by rw [hinferred.config_eq, hunion]
  obtain ⟨d', hd', hreport⟩ := Check.report_reordered hfiled hpolicy (hown.symm ▸ hsame) hd
  have hc' := inferred?_eq_some.mpr ⟨function', _, hfunction', hbuilt', rfl⟩
  have hsearch : { built with function := function' }.infer.borrowCheck = some d' := hd'
  rw [check_of_inferred? hc', hsearch]
  exact congrArg Except.ok hreport

/-- A pointer is set on one of two ways to a node where it is live. -/
def crossing : Fixture where
  name := "crossing"
  params := [⟨"x", .builtin .int⟩]
  returnTy := none
  start := 0
  nodes := [
    ⟨0, .start, [1, 2], [], [], none⟩,
    ⟨1, .instructions [.decl "p" (.pointer (.builtin .int)) (some (.addrOf (.var "x")))], [2],
      ["x"], ["p", "x"], none⟩,
    ⟨2, .jump, [], ["p", "x"], [], none⟩]

/-- The same nodes from last to first, with successors and live names turned round and repeated. -/
def crossingBackwards : Fixture where
  name := "crossing"
  params := [⟨"x", .builtin .int⟩]
  returnTy := none
  start := 0
  nodes := [
    ⟨2, .jump, [], ["x", "p", "x"], [], none⟩,
    ⟨1, .instructions [.decl "p" (.pointer (.builtin .int)) (some (.addrOf (.var "x")))], [2, 2],
      ["x", "x"], ["x", "p"], none⟩,
    ⟨0, .start, [2, 1, 2], [], [], none⟩]

theorem reordered_crossing : crossing.Reordered crossingBackwards := by
  refine ⟨rfl, rfl, rfl, rfl, crossing.nodes.reverse, (List.reverse_perm _).symm, ?_⟩
  refine .cons ?_ (.cons ?_ (.cons ?_ .nil))
  all_goals exact ⟨rfl, rfl, rfl, by simp [or_comm], by simp [or_comm], by simp [or_comm]⟩

theorem inferred?_crossing : (crossing.inferred? 0 ⟨.union, true, true⟩).isSome := by
  have hsorted : crossing.sortedNodes = crossing.nodes := List.mergeSort_of_pairwise (by decide)
  simp only [inferred?, Fixture.toFunction, plan, edges, names, hsorted]
  decide +kernel

theorem check_reordered_crossing :
    (⟨.union, true, true⟩ : Config).joinPolicy = .union ∧ crossing.Reordered crossingBackwards ∧
      ∃ report, crossing.check 0 ⟨.union, true, true⟩ = .ok report ∧
        crossingBackwards.check 0 ⟨.union, true, true⟩ = .ok report := by
  obtain ⟨report, hcheck⟩ := exists_report_union inferred?_crossing rfl
  exact ⟨rfl, reordered_crossing, report, hcheck, check_reordered rfl reordered_crossing hcheck⟩

end Fixture

end LoanScope
