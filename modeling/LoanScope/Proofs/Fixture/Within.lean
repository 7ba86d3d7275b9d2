import LoanScope.Proofs.Check.Within
import LoanScope.Proofs.Fixture.Order

/-! A fixture with more edges and more live names is checked more cautiously: it is accepted if and
only if the smaller one is, and then has the same loans, copies and moves, larger regions and more
loans in scope. -/

namespace LoanScope

/-! ### Reports -/

/-- A region of the same name with more points. -/
structure RegionSummary.Within (a b : RegionSummary) : Prop where
  name : b.name = a.name
  points : a.points ⊆ b.points

/-- The same node with the same copies and moves and more loans in scope. -/
structure NodeSummary.Within (a b : NodeSummary) : Prop where
  id : b.id = a.id
  copies : b.copies = a.copies
  moves : b.moves = a.moves
  inScope : a.inScope ⊆ b.inScope

/-- Reports of the same loans, the second with larger regions and more loans in scope. -/
structure Report.Within (a b : Report) : Prop where
  function : b.function = a.function
  loans : b.loans = a.loans
  regions : List.Forall₂ RegionSummary.Within a.regions b.regions
  nodes : List.Forall₂ NodeSummary.Within a.nodes b.nodes

namespace Check

variable {c d : Check}

theorem forall₂_regions_report (hbare : d.regions.bare = c.regions.bare)
    (hpoints : ∀ r, ∀ n ∈ c.regions.points r, n ∈ d.regions.points r) :
    List.Forall₂ RegionSummary.Within c.report.regions d.report.regions := by
  have hsize : d.regions.size = c.regions.size := Regions.size_eq_of_bare hbare
  refine List.forall₂_iff_get.mpr
    ⟨by simpa [report, Regions.size] using hsize.symm, fun r hr hr' => ?_⟩
  have hlt : r < c.regions.toList.length := by simpa [report] using hr
  have hlt' : r < d.regions.toList.length := by simpa [report] using hr'
  have hname : d.regions.toList[r].name = c.regions.toList[r].name := by
    have hsame := congrArg (fun rs => (rs.toList[r]?).map Region.name) hbare
    simpa [Regions.bare, hlt, hlt'] using hsame
  refine ⟨by simp [report, hname], fun n hn => ?_⟩
  have hgrow := hpoints r n
  simp only [Regions.points, Regions.get?, hlt, hlt', List.getElem?_eq_getElem, Option.map_some,
    Option.getD_some] at hgrow
  simp only [report, List.get_eq_getElem, List.getElem_map, IdSet.mem_toList] at hn ⊢
  exact hgrow hn

theorem forall₂_nodes_report (hfacts : d.facts = c.facts)
    (hlength : c.inScope.length = c.facts.nodes.length)
    (hlength' : d.inScope.length = d.facts.nodes.length)
    (hscope : ∀ n, ∀ l ∈ c.scopeAt n, l ∈ d.scopeAt n) :
    List.Forall₂ NodeSummary.Within c.report.nodes d.report.nodes := by
  refine List.forall₂_iff_get.mpr ⟨by simp [report, hlength, hlength', hfacts], fun n hn hn' => ?_⟩
  have hnode := getElem?_nodes_report (List.getElem?_eq_getElem hn)
  have hnode' := getElem?_nodes_report (List.getElem?_eq_getElem hn')
  refine ⟨hnode'.1.trans hnode.1.symm, ?_, ?_, ?_⟩
  · simp [report, hfacts]
  · simp [report, hfacts]
  · intro text htext
    simp only [List.get_eq_getElem, hnode.2, hnode'.2, List.mem_map, IdSet.mem_toList] at htext ⊢
    obtain ⟨l, hl, rfl⟩ := htext
    exact ⟨l, hscope n l hl, rfl⟩

end Check

/-! ### Fixtures -/

namespace Fixture

/-- Nodes that do the same, the second with more successors and more names live on entry. -/
structure Node.Within (m n : Node) : Prop where
  code : m.SameCode n
  succ : m.succ ⊆ n.succ
  liveIn : m.liveIn ⊆ n.liveIn

/-- Fixtures that differ only in that the nodes of the second have more successors, all of them
nodes, and more names live on entry. -/
structure Within (f g : Fixture) : Prop where
  name : g.name = f.name
  params : g.params = f.params
  returnTy : g.returnTy = f.returnTy
  start : g.start = f.start
  nodes : NodesRelated Node.Within f.nodes g.nodes
  succ_lt : ∀ node ∈ g.nodes, ∀ m ∈ node.succ, m.toNat < g.nodes.length

namespace Within

variable {f g : Fixture} {file : FileId} {function function' : Function}

theorem sameCode (h : f.Within g) : f.SameCode g :=
  ⟨h.params, h.returnTy, h.nodes.imp fun _ _ hnode => hnode.code⟩

theorem mem_edges (h : f.Within g) {e : Edge} (he : e ∈ f.edges) : e ∈ g.edges := by
  obtain ⟨ordered, hperm, hnodes⟩ := h.nodes
  obtain ⟨node, hnode, m, hm, rfl⟩ := Fixture.mem_edges.mp he
  obtain ⟨i, hi, rfl⟩ := List.mem_iff_getElem.mp (hperm.mem_iff.mp hnode)
  obtain ⟨hlength, hwithin⟩ := List.forall₂_iff_get.mp hnodes
  have hi' : i < g.nodes.length := hlength ▸ hi
  have hsame := hwithin i hi hi'
  refine Fixture.mem_edges.mpr ⟨g.nodes[i], List.getElem_mem hi', m, hsame.succ hm, ?_⟩
  exact congrArg (fun id : UInt32 => (id.toNat, m.toNat)) hsame.code.id

/-- If one of the starts is a node, so is the other. -/
theorem closed (h : f.Within g) : f.Closed ↔ g.Closed := by
  have hlength := h.sameCode.length_nodes
  constructor
  · intro hclosed
    exact ⟨by rw [h.start, hlength]; exact hclosed.start_lt, h.succ_lt⟩
  · intro hclosed
    refine ⟨by rw [← h.start, ← hlength]; exact hclosed.start_lt, ?_⟩
    intro node hnode m hm
    obtain ⟨node', hnode', m', hm', heq⟩ :=
      Fixture.mem_edges.mp (h.mem_edges (Fixture.mem_edges.mpr ⟨node, hnode, m, hm, rfl⟩))
    rw [← hlength, ← (Prod.mk.inj heq).2]
    exact h.succ_lt node' hnode' m' hm'

/-- The functions of the two fixtures are related as the fixtures are. -/
theorem toFunction (h : f.Within g) (hf : f.toFunction file = .ok function)
    (hg : g.toFunction file = .ok function') : function.Within function' := by
  have hcode := h.sameCode.toFunction hf hg
  have hids := (toFunction_eq_ok.mp hf).1
  have hnodes := h.sameCode.sortedNodes hids (fun _ _ hnode => Node.Within.code hnode) h.nodes
  have hof := toFunction_functionOf hf
  have hof' := toFunction_functionOf hg
  refine ⟨hcode, ?_, ?_, ?_, ?_⟩
  · exact hof.nodes.forall₂_liveIn hof'.nodes (R := (· ⊆ ·))
      (hnodes.imp fun _ _ hnode => hnode.liveIn)
  · rw [hof.start, hof'.start, h.start]
  · rw [hof.size, hof'.size]
    simpa using congrArg List.length hcode.steps
  · intro e he
    exact (hof'.edges e).mpr (h.mem_edges ((hof.edges e).mp he))

end Within

/-- A report is made of a function and its check. -/
theorem check_eq_ok {f : Fixture} {file : FileId} {config : Config} {report : Report} :
    f.check file config = .ok report ↔
      ∃ function c, f.toFunction file = .ok function ∧ function.check config = .ok c ∧
        c.report = report := by
  rw [check]
  cases f.toFunction file with
  | error e => simp
  | ok function => cases hc : function.check config <;> simp [hc]

/-- The check of a fixture's function leaves a set of loans in scope for each node. -/
theorem length_inScope {f : Fixture} {file : FileId} {config : Config} {function : Function}
    {c : Check} (hfunction : f.toFunction file = .ok function)
    (hc : function.check config = .ok c) :
    c.function = function ∧ c.inScope.length = c.facts.nodes.length := by
  obtain ⟨built, hbind, hsearch⟩ := Check.check_eq_ok.mp hc
  have hbuilt := Check.built_of_bind hbind
  have hsize : function.graph.size = built.facts.nodes.length := by
    rw [(toFunction_functionOf hfunction).size, Facts.length_nodes hbuilt.facts_eq]
  have hlength := (Check.facts_of_borrowCheck hsearch).2
  have hown : built.infer.function = function := hbuilt.function_eq
  rw [hown, hsize] at hlength
  obtain ⟨s, -, rfl⟩ := Check.eq_of_borrowCheck hsearch
  exact ⟨hown, hlength⟩

theorem Within.report {f g : Fixture} {file : FileId} {config : Config} {r s : Report}
    (h : f.Within g) (hunion : config.joinPolicy = .union) (hf : f.check file config = .ok r)
    (hg : g.check file config = .ok s) : r.Within s := by
  obtain ⟨function, c, hfunction, hc, rfl⟩ := check_eq_ok.mp hf
  obtain ⟨function', d, hfunction', hd, rfl⟩ := check_eq_ok.mp hg
  obtain ⟨hfacts, hbare, hpoints, hscope⟩ :=
    (h.toFunction hfunction hfunction').check ⟨fun h => h, fun h => h⟩ hunion hc hd
  obtain ⟨hown, hlength⟩ := length_inScope hfunction hc
  obtain ⟨hown', hlength'⟩ := length_inScope hfunction' hd
  refine ⟨?_, ?_, ?_, ?_⟩
  · have hname : d.function.name = c.function.name := by
      rw [hown, hown', name_of_toFunction hfunction, name_of_toFunction hfunction', h.name]
    exact hname
  · simp [Check.report, hfacts]
  · exact Check.forall₂_regions_report hbare hpoints
  · exact Check.forall₂_nodes_report hfacts hlength hlength' hscope

/-- Under union, a fixture with the code of an accepted one is accepted, if its start and edges lead
to nodes. -/
theorem SameCode.exists_check {f g : Fixture} {file : FileId} {config : Config} (h : f.SameCode g)
    (hclosed : g.Closed) (hunion : config.joinPolicy = .union)
    (hf : ∃ r, f.check file config = .ok r) :
    ∃ s, g.check file config = .ok s := by
  obtain ⟨r, hr⟩ := hf
  obtain ⟨function, c, hfunction, hc, -⟩ := check_eq_ok.mp hr
  obtain ⟨built, hbind, -⟩ := Check.check_eq_ok.mp hc
  obtain ⟨function', hfunction'⟩ := h.exists_toFunction hfunction hclosed
  have hfacts := (h.toFunction hfunction hfunction').facts.trans
    (Check.built_of_bind hbind).facts_eq
  obtain ⟨d, hd⟩ := Check.exists_check_union hfacts config hunion
  exact ⟨d.report, check_eq_ok.mpr ⟨function', d, hfunction', hd, rfl⟩⟩

/-- Under union, giving nodes more successors and more live names does not change whether a fixture
is accepted, nor its loans, copies and moves; regions only get more points, and nodes more loans in
scope. -/
theorem check_within (f g : Fixture) (file : FileId) (config : Config) (h : f.Within g)
    (hunion : config.joinPolicy = .union) :
    ((∃ r, f.check file config = .ok r) ↔ ∃ s, g.check file config = .ok s) ∧
      ∀ r s, f.check file config = .ok r → g.check file config = .ok s → r.Within s := by
  refine ⟨⟨?_, ?_⟩, fun r s => h.report hunion⟩
  · rintro ⟨r, hr⟩
    obtain ⟨function, -, hfunction, -⟩ := check_eq_ok.mp hr
    exact h.sameCode.exists_check (h.closed.mp (closed_of_toFunction hfunction)) hunion ⟨r, hr⟩
  · rintro ⟨s, hs⟩
    obtain ⟨function, -, hfunction, -⟩ := check_eq_ok.mp hs
    exact h.sameCode.symm.exists_check (h.closed.mpr (closed_of_toFunction hfunction))
      hunion ⟨s, hs⟩

/-- The crossing without the way around node `1`, and with nothing live behind it. -/
def passage : Fixture where
  name := "crossing"
  params := [⟨"x", .builtin .int⟩]
  returnTy := none
  start := 0
  nodes := [
    ⟨0, .start, [1], [], [], none⟩,
    ⟨1, .instructions [.decl "p" (.pointer (.builtin .int)) (some (.addrOf (.var "x")))], [2],
      ["x"], [], none⟩,
    ⟨2, .jump, [], [], ["p"], none⟩]

theorem within_crossing : passage.Within crossing := by
  refine ⟨rfl, rfl, rfl, rfl, ⟨passage.nodes, .refl _, ?_⟩, by simp [crossing]⟩
  refine .cons ?_ (.cons ?_ (.cons ?_ .nil))
  all_goals exact ⟨⟨rfl, rfl, rfl⟩, by simp, by simp⟩

/-- The crossing is accepted, and so is the passage. -/
theorem check_within_crossing :
    passage.Within crossing ∧ (⟨.union, true, true⟩ : Config).joinPolicy = .union ∧
      ∃ r s, passage.check 0 ⟨.union, true, true⟩ = .ok r ∧
        crossing.check 0 ⟨.union, true, true⟩ = .ok s ∧ r.Within s := by
  obtain ⟨s, hs⟩ := exists_report_union inferred?_crossing rfl
  obtain ⟨haccepted, hreports⟩ :=
    check_within passage crossing 0 ⟨.union, true, true⟩ within_crossing rfl
  obtain ⟨r, hr⟩ := haccepted.mpr ⟨s, hs⟩
  exact ⟨within_crossing, rfl, r, s, hr, hs, hreports r s hr hs⟩

end Fixture

end LoanScope
