import LoanScope.Facts
import LoanScope.Proofs.Function.Outcome
import Mathlib.Data.List.Nodup
import Mathlib.Data.List.Perm.Basic

/-! Fixtures with the same code: they may differ in the order of their nodes, in their edges and in
what is live. Names are bound in the same way, so that their functions do the same at every node and
have the same facts. -/

namespace LoanScope

/-! ### Functions -/

namespace Function

/-- Functions that do the same at every node. -/
structure SameCode (f g : Function) : Prop where
  file : g.file = f.file
  params : g.params = f.params
  returnTy : g.returnTy = f.returnTy
  steps : g.nodes.map Node.step = f.nodes.map Node.step

variable {f g : Function}

theorem recordNodes_congr {nodes nodes' : List Node}
    (h : nodes'.map Node.step = nodes.map Node.step) (declared : Declared) (regions : Regions)
    (loans : List Loan) (n : NodeId) :
    Facts.recordNodes declared regions loans n nodes' =
      Facts.recordNodes declared regions loans n nodes := by
  induction nodes generalizing nodes' regions loans n with
  | nil => rw [List.map_eq_nil_iff.mp h]
  | cons node rest ih =>
      cases nodes' with
      | nil => simp at h
      | cons node' rest' =>
          simp only [List.map_cons, List.cons.injEq] at h
          simp only [Facts.recordNodes, h.1, ih h.2]

/-- Facts are about what the nodes do, in order. -/
theorem SameCode.facts (h : f.SameCode g) : g.facts = f.facts := by
  have hdecls : g.nodes.flatMap (·.step.decls) = f.nodes.flatMap (·.step.decls) := by
    rw [← List.flatMap_map Node.step Step.decls, h.steps, List.flatMap_map]
  have hregistry : g.registry = f.registry := by
    simp only [registry, span, h.params, h.returnTy, h.file, hdecls]
  rw [Function.facts, Function.facts, hregistry]
  simp only [recordNodes_congr h.steps]

end Function

/-! ### Fixtures -/

namespace Fixture

/-- Nodes that do the same. -/
structure Node.SameCode (m n : Node) : Prop where
  id : n.id = m.id
  body : n.body = m.body
  span : n.span = m.span

/-- Nodes that are related one by one, once those of the first list are brought into order. -/
def NodesRelated (R : Node → Node → Prop) (nodes nodes' : List Node) : Prop :=
  ∃ ordered, nodes.Perm ordered ∧ List.Forall₂ R ordered nodes'

/-- Fixtures that do the same at every node. -/
structure SameCode (f g : Fixture) : Prop where
  params : g.params = f.params
  returnTy : g.returnTy = f.returnTy
  nodes : NodesRelated Node.SameCode f.nodes g.nodes

theorem NodesRelated.imp {R S : Node → Node → Prop} (hRS : ∀ m n, R m n → S m n)
    {nodes nodes' : List Node} (h : NodesRelated R nodes nodes') : NodesRelated S nodes nodes' := by
  obtain ⟨ordered, hperm, hsame⟩ := h
  exact ⟨ordered, hperm, hsame.imp hRS⟩

theorem Node.SameCode.symm {m n : Node} (h : m.SameCode n) : n.SameCode m :=
  ⟨h.id.symm, h.body.symm, h.span.symm⟩

theorem SameCode.symm {f g : Fixture} (h : f.SameCode g) : g.SameCode f := by
  obtain ⟨ordered, hperm, hsame⟩ := h.nodes
  obtain ⟨other, hother, hperm'⟩ := List.perm_comp_forall₂ hperm hsame
  exact ⟨h.params.symm, h.returnTy.symm, other, hperm'.symm,
    (hother.imp fun _ _ hnode => hnode.symm).flip⟩

theorem map_id_of_sameCode {nodes nodes' : List Node}
    (h : List.Forall₂ Node.SameCode nodes nodes') :
    nodes'.map (·.id.toNat) = nodes.map (·.id.toNat) := by
  induction h with
  | nil => rfl
  | cons hnode _ ih => simp [hnode.id, ih]

namespace SameCode

variable {f g : Fixture} {file : FileId}

theorem perm_ids (h : f.SameCode g) : g.ids.Perm f.ids := by
  obtain ⟨ordered, hperm, hsame⟩ := h.nodes
  rw [ids, map_id_of_sameCode hsame]
  exact (hperm.map _).symm

theorem length_nodes (h : f.SameCode g) : g.nodes.length = f.nodes.length := by
  simpa [ids] using h.perm_ids.length_eq

theorem numbered (h : f.SameCode g) : g.Numbered ↔ f.Numbered := by
  rw [Numbered, Numbered, h.length_nodes]
  exact ⟨h.perm_ids.symm.trans, h.perm_ids.trans⟩

/-- By ascending id the nodes of one fixture are related to those of the other. -/
theorem sortedNodes (h : f.SameCode g) (hids : f.Numbered) {R : Node → Node → Prop}
    (hR : ∀ m n, R m n → m.SameCode n) (hnodes : NodesRelated R f.nodes g.nodes) :
    List.Forall₂ R f.sortedNodes g.sortedNodes := by
  obtain ⟨ordered, hperm, hrelated⟩ := hnodes
  obtain ⟨sorted, hsorted, hsame⟩ :=
    List.perm_comp_forall₂ ((List.mergeSort_perm f.nodes _).trans hperm) hrelated
  -- Both lists are sorted, and no id occurs twice.
  have hascending : (sorted.map (·.id.toNat)).Pairwise (· ≤ ·) := by
    rw [map_id_of_sameCode (hsorted.imp hR)]
    exact f.map_id_sortedNodes ▸ f.sortedIds_ascending
  have hascending' : (g.sortedNodes.map (·.id.toNat)).Pairwise (· ≤ ·) :=
    g.map_id_sortedNodes ▸ g.sortedIds_ascending
  have hnodup : (sorted.map (·.id.toNat)).Nodup :=
    ((hsame.map _).trans (h.perm_ids.trans hids)).nodup_iff.mpr List.nodup_range
  have heq : sorted = g.sortedNodes := by
    refine List.Perm.eq_of_pairwise ?_ (List.pairwise_map.mp hascending)
      (List.pairwise_map.mp hascending') (hsame.trans (List.mergeSort_perm g.nodes _).symm)
    intro m n hm hn hmn hnm
    have hn' : n ∈ sorted := hsame.mem_iff.mpr (List.mem_mergeSort.mp hn)
    exact List.inj_on_of_nodup_map hnodup hm hn' (Nat.le_antisymm hmn hnm)
  exact heq ▸ hsorted

theorem mentions (h : f.SameCode g) (hids : f.Numbered) : g.mentions = f.mentions := by
  have hnodes : ∀ {nodes nodes' : List Node}, List.Forall₂ Node.SameCode nodes nodes' →
      (nodes'.flatMap fun n => n.body.mentions n.id.toNat) =
        nodes.flatMap fun n => n.body.mentions n.id.toNat := by
    intro nodes nodes' hsame
    induction hsame with
    | nil => rfl
    | cons hnode _ ih => simp [hnode.body, hnode.id, ih]
  rw [Fixture.mentions, Fixture.mentions, h.params,
    hnodes (h.sortedNodes hids (fun _ _ hnode => hnode) h.nodes)]

end SameCode

/-- Nodes with related live names are bound to nodes with related live names. -/
theorem Node.ListBoundTo.forall₂_liveIn {names names' : List String} {nodes nodes' : List Node}
    {bound bound' : List LoanScope.Node} (h : Node.ListBoundTo names nodes bound)
    (h' : Node.ListBoundTo names' nodes' bound') {R : List String → List String → Prop}
    (hlive : List.Forall₂ (fun m n => R m.liveIn n.liveIn) nodes nodes') :
    List.Forall₂ (fun m n => R m.liveIn n.liveIn) bound bound' := by
  induction hlive generalizing names names' bound bound' with
  | nil =>
      cases h
      cases h'
      exact .nil
  | cons hfirst _ ih =>
      cases h with
      | cons _ hsame hrest =>
          cases h' with
          | cons _ hsame' hrest' => exact .cons (by rwa [hsame, hsame']) (ih hrest hrest')

theorem name_of_toFunction {f : Fixture} {file : FileId} {function : Function}
    (h : f.toFunction file = .ok function) : function.name = f.name := by
  obtain ⟨-, bound, -, hfunction⟩ := toFunction_eq_ok.mp h
  obtain ⟨graph, -, rfl⟩ := map_eq_ok.mp hfunction
  rfl

/-- Binding does not look at successors and live names. -/
theorem Node.bindList_sameCode {file : FileId} {nodes nodes' : List Node}
    (h : List.Forall₂ Node.SameCode nodes nodes') {scope : Scope} {b b' : LoanScope.Body}
    {bound : List LoanScope.Node} (hbound : Node.bindList file scope b nodes = .ok (bound, b')) :
    ∃ bound', Node.bindList file scope b nodes' = .ok (bound', b') ∧
      bound'.map LoanScope.Node.step = bound.map LoanScope.Node.step := by
  induction h generalizing scope b b' bound with
  | nil =>
      cases hbound
      exact ⟨[], rfl, rfl⟩
  | @cons node node' rest rest' hnode _ ih =>
      obtain ⟨step, hstep, hmore⟩ := bind_eq_ok.mp hbound
      obtain ⟨⟨later, b₁⟩, hlater, hend⟩ := bind_eq_ok.mp hmore
      obtain ⟨later', hlater', hsteps⟩ := ih hlater
      cases hend
      have hstep' : node'.body.bind ⟨node'.id.toNat, node'.spanIn file, scope⟩ b = .ok step := by
        rwa [hnode.body, hnode.id, Node.spanIn, hnode.span]
      refine ⟨⟨step.value, node'.liveIn, node'.liveOut⟩ :: later', ?_, ?_⟩
      · exact bind_eq_ok.mpr ⟨step, hstep', bind_eq_ok.mpr ⟨(later', b'), hlater', rfl⟩⟩
      · exact congrArg (List.cons step.value) hsteps

namespace SameCode

variable {f g : Fixture} {file : FileId} {function function' : Function}

/-- A fixture with the code of a function is a function too, if its start and edges lead to
nodes. -/
theorem exists_toFunction (h : f.SameCode g) (hf : f.toFunction file = .ok function)
    (hclosed : g.Closed) :
    ∃ function', g.toFunction file = .ok function' := by
  obtain ⟨hids, bound, hbound, -⟩ := toFunction_eq_ok.mp hf
  have hnames : Mention.Resolved g.mentions := by
    rw [h.mentions hids]
    exact (exists_boundNodes_eq_ok hids).mp ⟨bound, hbound⟩
  cases hg : g.toFunction file with
  | ok function' => exact ⟨function', rfl⟩
  | error e =>
      exact absurd (toFunction_eq_error.mp hg) (not_fails (h.numbered.mpr hids) hnames hclosed e)

theorem toFunction (h : f.SameCode g) (hf : f.toFunction file = .ok function)
    (hg : g.toFunction file = .ok function') : function.SameCode function' := by
  obtain ⟨hids, bound, hbound, hfunction⟩ := toFunction_eq_ok.mp hf
  obtain ⟨-, bound', hbound', hfunction'⟩ := toFunction_eq_ok.mp hg
  have hnodes := h.sortedNodes hids (fun _ _ hnode => hnode) h.nodes
  obtain ⟨same, hsame, hsteps⟩ := Node.bindList_sameCode hnodes hbound
  have hparams : g.boundParams file = f.boundParams file := by
    rw [boundParams, boundParams, h.params]
  have hreturn : g.boundReturn file = f.boundReturn file := by
    rw [boundReturn, boundReturn, hparams, h.returnTy]
  rw [boundNodes, h.params, hreturn, hsame] at hbound'
  cases hbound'
  obtain ⟨graph, -, rfl⟩ := map_eq_ok.mp hfunction
  obtain ⟨graph', -, rfl⟩ := map_eq_ok.mp hfunction'
  exact ⟨rfl, congrArg Prod.fst hparams, congrArg Prod.fst hreturn, hsteps⟩

end SameCode

end Fixture

end LoanScope
