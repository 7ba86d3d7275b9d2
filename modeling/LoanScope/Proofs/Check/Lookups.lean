import LoanScope.Proofs.Check.Phases

/-! Lookups by number. Whatever phases of a check are run, the numbers of nodes, loans and regions
in its facts, its constraints, its search and its result are those of nodes, loans and regions that
there are. -/

namespace LoanScope

/-! ### Facts -/

/-- There are facts for each node, and what they refer to by number exists. -/
structure Facts.InRange (facts : Facts) (size : Nat) : Prop where
  nodes : facts.nodes.length = size
  loans : ∀ here ∈ facts.nodes, ∀ l ∈ here.loans, l < facts.loans.length
  sources : ∀ here ∈ facts.nodes, ∀ a ∈ here.assignments, ∀ l, a.source = .borrow l →
    l < facts.loans.length
  ids : ∀ loan ∈ facts.loans, loan.id < facts.loans.length
  origins : ∀ loan ∈ facts.loans, loan.origin < size
  regions : ∀ loan ∈ facts.loans, loan.region < facts.regions.size

/-- Loans that are assigned have smaller numbers than `bound`. -/
def NodeFacts.SourcesBelow (bound : Nat) (here : NodeFacts) : Prop :=
  ∀ a ∈ here.assignments, ∀ l, a.source = .borrow l → l < bound

theorem NodeFacts.SourcesBelow.mono {bound more : Nat} {here : NodeFacts}
    (h : here.SourcesBelow bound) (hle : bound ≤ more) : here.SourcesBelow more :=
  fun a ha l hl => Nat.lt_of_lt_of_le (h a ha l hl) hle

theorem Record.sourcesBelow_act {s : Scene} {r r' : Record} (hact : Act s r r')
    (h : r.facts.SourcesBelow r.loans.length) : r'.facts.SourcesBelow r'.loans.length := by
  -- Loans are only added, so that earlier assignments stay below the bound.
  have hold := h.mono hact.extends.loans.length_le
  cases hact with
  | access _ _ _ => exact hold
  | @borrow id span lent dest kind _ _ _ =>
      intro a ha l hl
      rcases List.mem_append.mp ha with ha | ha
      · exact hold a ha l hl
      · cases List.mem_singleton.mp ha
        cases hl
        exact Nat.lt_of_lt_of_eq (Nat.lt_succ_self _)
          (r.length_loans_borrow s.node id span lent dest kind).symm
  | pass _ _ _ =>
      intro a ha l hl
      rcases mem_assignments_pass.mp ha with ha | ⟨-, rfl⟩
      · exact hold a ha l hl
      · cases hl
  | call _ _ _ =>
      intro a ha l hl
      rcases List.mem_append.mp ha with ha | ha
      · exact hold a ha l hl
      · cases List.mem_singleton.mp ha
        cases hl
  | ret _ _ => exact hold

theorem NodesRecorded.sourcesBelow {d : Declared} {n : NodeId} {nodes : List Node}
    {regions : Regions} {loans : List Loan} {facts : Facts}
    (h : NodesRecorded d n nodes regions loans facts) :
    ∀ here ∈ facts.nodes, here.SourcesBelow facts.loans.length := by
  induction h with
  | nil => simp
  | cons hfirst hrest ih =>
      have hhere := hfirst.acts.invariant (P := fun r => r.facts.SourcesBelow r.loans.length)
        (fun _ _ => Record.sourcesBelow_act) (by simp [NodeFacts.SourcesBelow, NodeFacts.empty])
      exact List.forall_mem_cons.mpr ⟨hhere.mono hrest.extends.2.2.1.length_le, ih⟩

theorem Function.facts_inRange {f : Function} {facts : Facts} (h : f.facts = .ok facts)
    (hsize : f.graph.size = f.nodes.length) : facts.InRange f.graph.size := by
  have hfiled := Function.facts_filed h
  have hlength : facts.nodes.length = f.graph.size := (Facts.length_nodes h).trans hsize.symm
  obtain ⟨registry, -, hrecorded⟩ := Function.facts_recorded h
  refine ⟨hlength, ?_, hrecorded.sourcesBelow, ?_, ?_, ?_⟩
  · intro here hhere l hl
    obtain ⟨n, hn⟩ := List.mem_iff_getElem?.mp hhere
    obtain ⟨loan, hloan, -⟩ := (hfiled.listed n l).mp (by simpa [hn] using hl)
    exact lt_length_of_getElem? hloan
  · intro loan hloan
    obtain ⟨l, hl⟩ := List.mem_iff_getElem?.mp hloan
    rw [hfiled.numbered l loan hl]
    exact lt_length_of_getElem? hl
  · intro loan hloan
    obtain ⟨l, hl⟩ := List.mem_iff_getElem?.mp hloan
    obtain ⟨here, hhere, -⟩ := hfiled.exists_origin hl
    exact hlength ▸ lt_length_of_getElem? hhere
  · intro loan hloan
    exact ((Function.facts_typed h).loans loan hloan).region_lt

/-! ### Constraints -/

/-- The regions and the node that a constraint speaks of are among so many. -/
def Constraint.InRange (regions nodes : Nat) : Constraint → Prop
  | outlives longer shorter point => longer < regions ∧ shorter < regions ∧ point < nodes
  | live region point => region < regions ∧ point < nodes

namespace Facts

variable {f : Function} {facts : Facts} {config : Config}

theorem Filed.point_lt (hfiled : facts.Filed) (hlength : facts.nodes.length = f.graph.size)
    {all : List Constraint} (hall : facts.allConstraints config f = .ok all) {k : Constraint}
    (hk : k ∈ all) :
    k.point < f.graph.size := by
  rcases (mem_allConstraints hall).mp hk with
    hglobal | ⟨n, node, here, first, -, hhere, hfirst, hmem⟩
  · rcases mem_globalConstraints.mp hglobal with ⟨-, n, hn, rfl⟩ | ⟨_, _, _, -, -, rfl⟩
    · exact hn
    · exact f.graph.start_lt
  · rw [hfiled.point_eq hhere hfirst hmem, ← hlength]
    exact lt_length_of_getElem? hhere

theorem constraints_inRange (h : f.facts = .ok facts) (hsize : f.graph.size = f.nodes.length)
    {cs : List Constraint} (hcs : facts.constraints config f = .ok cs) :
    ∀ k ∈ cs, k.InRange facts.regions.size f.graph.size := by
  have htyped := Function.facts_typed h
  obtain ⟨all, hall, hend⟩ := bind_eq_ok.mp hcs
  cases hend
  intro k hk
  have hmem := (Constraint.mem_tidy.mp hk).1
  have hpoint := (Function.facts_filed h).point_lt (Function.facts_inRange h hsize).nodes hall hmem
  cases k with
  | outlives r s p =>
      obtain ⟨hr, hs⟩ := htyped.lt_of_mustContain (Function.static_lt_size h)
        (mustContain_of_mem hall hmem)
      exact ⟨hr, hs, hpoint⟩
  | live r p =>
      refine ⟨?_, hpoint⟩
      rcases (htyped.live_mem_iff hall (length_nodes h)).mp hmem with
        ⟨_, _, e, he, -, hr⟩ | ⟨rfl, -, -⟩
      · exact (htyped.placed e he).lt_of_mem_regions hr
      · exact Function.static_lt_size h

end Facts

/-! ### The search -/

namespace Flow

/-- A state of the search that has sets for all nodes, and only nodes and loans of the flow in
it. -/
structure Sweep.InRange (f : Flow) (s : Sweep) : Prop where
  entry_size : s.entry.size = f.graph.size
  exit_size : s.exit.size = f.graph.size
  queue : ∀ n ∈ s.queue, n < f.graph.size
  entry : ∀ n, ∀ l ∈ s.entryOf n, l < f.loans
  exit : ∀ n t, s.exitOf n = some t → ∀ l ∈ t, l < f.loans

variable {f : Flow}

theorem Bounded.lt_of_mem_entryOf (hf : f.Bounded) (k : Nat) :
    ∀ n, ∀ l ∈ (f.after k).entryOf n, l < f.loans := by
  refine (after_invariant (fun s => f.ExitBounded s ∧ ∀ n, ∀ l ∈ s.entryOf n,
    l < f.loans) ?_ ?_ k).2
  · exact ⟨f.exitBounded_start, fun n l hl => absurd hl (by simp [entryOf_start])⟩
  · rintro s n rest hq hord ⟨hexit, hentry⟩
    have hn := hord.head_lt hq
    refine ⟨hexit.visit hf (hord.exit_size ▸ hn), ?_⟩
    intro m l hl
    rw [entryOf_visit (hord.entry_size ▸ hn)] at hl
    split at hl
    · obtain ⟨-, p, t, -, ht, hlt⟩ := exists_pred_of_mem_arriving hl
      exact hexit p t ht l hlt
    · exact hentry m l hl

/-- The search stays in range, also if it never ends. -/
theorem Bounded.inRange_after (hf : f.Bounded) (k : Nat) : (f.after k).InRange f := by
  have hord := f.orderly_after k
  refine ⟨hord.entry_size, hord.exit_size, ?_, hf.lt_of_mem_entryOf k, hf.exitBounded_after k⟩
  intro n hn
  exact (hord.queue_reached n hn).lt_size f.graph.start_lt

end Flow

/-! ### The phases -/

/-- A check of `f` all of whose numbers lead to nodes, loans and regions that there are: in the
facts, in the constraints, in every state of the search for loans in scope, and in what was
found. -/
structure Check.InRange (f : Function) (c : Check) : Prop where
  function_eq : c.function = f
  facts_eq : f.facts = .ok c.facts
  facts : c.facts.InRange f.graph.size
  regions : c.regions.bare = c.facts.regions.bare
  constraints : ∀ k ∈ c.constraints, k.InRange c.regions.size f.graph.size
  search : ∀ k, (c.flow.after k).InRange c.flow
  length_inScope : c.inScope.length = f.graph.size
  inScope : ∀ s ∈ c.inScope, ∀ l ∈ s, l < c.facts.loans.length

namespace Check.InRange

variable {f : Function} {config : Config} {c d : Check}

theorem of_start (h : Check.start f config = .ok c) (hsize : f.graph.size = f.nodes.length) :
    c.InRange f := by
  obtain ⟨hfacts, hc⟩ := Check.start_eq_ok.mp h
  have hrange := Function.facts_inRange hfacts hsize
  have hsearch := (flow_bounded (Function.facts_filed hfacts)).inRange_after
  rw [hc]
  rw [hc] at hsearch
  exact ⟨rfl, hfacts, hrange, rfl, by simp, hsearch, by simp [hrange.nodes], by simp⟩

/-- Constraints can be built after any phases. -/
theorem exists_buildConstraints (h : c.InRange f) :
    ∃ cs, c.facts.constraints c.config f = .ok cs ∧
      c.buildConstraints = .ok { c with constraints := cs } := by
  obtain ⟨cs, hcs⟩ := (Function.facts_typed h.facts_eq).exists_constraints c.config f
  exact ⟨cs, hcs, buildConstraints_of_bare h.regions (h.function_eq ▸ hcs)⟩

/-- No phase leads out of range. -/
theorem step (h : c.InRange f) (hsize : f.graph.size = f.nodes.length) {p : Phase}
    (hstep : p.step c = .ok d) :
    d.InRange f := by
  -- A phase may change the regions, and with them the flow, but not the loans.
  have hsearch : ∀ {d : Check}, d.facts = c.facts → ∀ k, (d.flow.after k).InRange d.flow := by
    intro d hd
    exact (flow_bounded (hd ▸ Function.facts_filed h.facts_eq)).inRange_after
  cases p with
  | build =>
      obtain ⟨cs, hcs, hbuild⟩ := h.exists_buildConstraints
      simp only [Phase.step, hbuild] at hstep
      cases hstep
      refine ⟨h.function_eq, h.facts_eq, h.facts, h.regions, ?_, hsearch rfl,
        h.length_inScope, h.inScope⟩
      rw [Regions.size_eq_of_bare h.regions]
      exact Facts.constraints_inRange h.facts_eq hsize hcs
  | infer =>
      cases hstep
      have hbare : c.infer.regions.bare = c.regions.bare :=
        Regions.bare_solve c.constraints c.regions
      refine ⟨h.function_eq, h.facts_eq, h.facts, hbare.trans h.regions, ?_, hsearch rfl,
        h.length_inScope, h.inScope⟩
      rw [Regions.size_eq_of_bare hbare]
      exact h.constraints
  | search =>
      cases hfound : c.borrowCheck with
      | none => simp [Phase.step, hfound] at hstep
      | some found =>
          simp only [Phase.step, hfound] at hstep
          cases hstep
          obtain ⟨s, hs, rfl⟩ := eq_of_borrowCheck hfound
          obtain ⟨-, rfl⟩ := (Flow.settle_eq_some_iff
            (flow_bounded (Function.facts_filed h.facts_eq))).mp hs
          refine ⟨h.function_eq, h.facts_eq, h.facts, h.regions, h.constraints, hsearch rfl, ?_, ?_⟩
          · simp [Graph.nodes, h.function_eq]
          · intro s hs
            obtain ⟨n, -, rfl⟩ := List.mem_map.mp hs
            exact (h.search _).entry n

theorem run (h : c.InRange f) (hsize : f.graph.size = f.nodes.length) {phases : List Phase}
    (hrun : Phase.run c phases = .ok d) : d.InRange f := by
  induction phases generalizing c with
  | nil =>
      cases hrun
      exact h
  | cons p rest ih =>
      obtain ⟨next, hstep, hrest⟩ := bind_eq_ok.mp hrun
      exact ih (h.step hsize hstep) hrest

end Check.InRange

end LoanScope
