import LoanScope.Proofs.Check.InScope
import LoanScope.Proofs.Check.Regions
import Mathlib.Data.List.Induction

/-! The phases of a check in any order and number. What they leave depends only on which of them
came after which others: constraints are there once they were built, regions once they were inferred
after that, loans in scope once they were searched for after that; and nothing changes from then
on. -/

namespace LoanScope

/-- A phase of a check after its start. -/
inductive Phase where
  | build | infer | search
deriving DecidableEq

namespace Phase

def step (c : Check) : Phase → Except CheckError Check
  | build =>
      match c.buildConstraints with
      | .error e => .error (.fault e)
      | .ok d => .ok d
  | infer => .ok c.infer
  | search =>
      match c.borrowCheck with
      | none => .error .unsettled
      | some d => .ok d

/-- Runs phases in order, until one fails. -/
def run (c : Check) (phases : List Phase) : Except CheckError Check := phases.foldlM step c

/-- What a run of phases leaves of a check that was at `start`, given that all phases in their
proper order lead to `done`. A phase counts as done once it was run after the phases that it builds
on. -/
structure Leaves (start done : Check) (phases : List Phase) (c : Check) : Prop where
  function_eq : c.function = start.function
  config_eq : c.config = start.config
  facts_eq : c.facts = start.facts
  constraints_eq : c.constraints = if [build].Sublist phases then done.constraints else []
  regions_eq : c.regions = if [build, infer].Sublist phases then done.regions else start.regions
  inScope : if [build, infer, search].Sublist phases then c.inScope = done.inScope
    else ∀ s ∈ c.inScope, s = ∅
  passes : ∀ before, phases = before ++ [infer] →
    c.passes = if [build].Sublist before ∧ ¬ [build, infer].Sublist before then done.passes else 1

/-- Running another phase last does not bring a sequence of phases about. -/
theorem sublist_concat (order : List Phase) {phases : List Phase} {p q : Phase} (h : p ≠ q) :
    (order ++ [p]).Sublist (phases ++ [q]) ↔ (order ++ [p]).Sublist phases := by
  constructor
  · intro hsub
    obtain ⟨front, last, heq, hfront, hlast⟩ := List.sublist_append_iff.mp hsub
    rcases List.sublist_singleton.mp hlast with rfl | rfl
    · rw [heq, List.append_nil]
      exact hfront
    · exact absurd (by simpa using (List.append_inj' heq rfl).2) h
  · intro hsub
    exact hsub.trans (List.sublist_append_left _ _)

/-- Running a phase last completes every sequence that lacked only that phase. -/
theorem sublist_concat_self (order : List Phase) {phases : List Phase} {p : Phase} :
    (order ++ [p]).Sublist (phases ++ [p]) ↔ order.Sublist phases :=
  List.append_sublist_append_right _

end Phase

/-! ### What each phase reads -/

/-- Constraints are built from what the regions are, and not from their points. -/
theorem Facts.constraints_of_bare {facts : Facts} {rs : Regions} (h : rs.bare = facts.regions.bare)
    (config : Config) (f : Function) :
    { facts with regions := rs }.constraints config f = facts.constraints config f := by
  have hsize : rs.size = facts.regions.size := Regions.size_eq_of_bare h
  have hbare : ∀ (rs : Regions) r,
      (rs.bare.get? r).map Region.isParam = (rs.get? r).map Region.isParam := by
    intro rs r
    simp only [Regions.bare, Regions.get?, List.getElem?_map, Option.map_map]
    rfl
  have hparam : ∀ r, (rs.get? r).map Region.isParam =
      (facts.regions.get? r).map Region.isParam := by
    intro r
    rw [← hbare, h, hbare]
  have hglobal : { facts with regions := rs }.globalConstraints config f.graph =
      facts.globalConstraints config f.graph := by
    simp only [globalConstraints, hsize, hparam]
  have hnodes : ∀ n list, { facts with regions := rs }.nodesConstraints n list =
      facts.nodesConstraints n list := by
    intro n list
    induction list generalizing n with
    | nil => rfl
    | cons head rest ih => simp only [nodesConstraints, ih]; rfl
  simp only [Facts.constraints, allConstraints, hglobal, hnodes]

namespace Check

variable {c c' d : Check}

theorem buildConstraints_of_bare (h : c.regions.bare = c.facts.regions.bare) {cs : List Constraint}
    (hcs : c.facts.constraints c.config c.function = .ok cs) :
    c.buildConstraints = .ok { c with constraints := cs } := by
  rw [← Facts.constraints_of_bare h] at hcs
  exact bind_eq_ok.mpr ⟨cs, hcs, rfl⟩

/-- The search changes nothing but the loans in scope and the number of visits. -/
theorem eq_of_borrowCheck (h : c.borrowCheck = some d) :
    ∃ s, c.flow.settle = some s ∧
      d = { c with inScope := c.function.graph.nodes.map s.entryOf, visits := s.visits } := by
  obtain ⟨s, hs, hd⟩ := Option.bind_eq_some_iff.mp h
  exact ⟨s, hs, by simpa using hd.symm⟩

/-- Searches with equal functions, facts and regions find the same loans in scope. -/
theorem borrowCheck_congr (h : c.borrowCheck = some d) (hfunction : c'.function = c.function)
    (hconfig : c'.config = c.config) (hfacts : c'.facts = c.facts)
    (hregions : c'.regions = c.regions) :
    c'.borrowCheck = some { c' with inScope := d.inScope, visits := d.visits } := by
  have hflow : c'.flow = c.flow := by
    cases c
    cases c'
    cases hfunction
    cases hconfig
    cases hfacts
    cases hregions
    rfl
  obtain ⟨s, hs, rfl⟩ := eq_of_borrowCheck h
  rw [borrowCheck, hflow, hs, hfunction]
  rfl

/-- No loan is in scope if no region has a point. -/
theorem inScope_of_no_points (hfiled : c.facts.Filed) (hunion : c.config.joinPolicy = .union)
    (hempty : ∀ r, c.regions.points r = ∅) (h : c.borrowCheck = some d) :
    ∀ s ∈ d.inScope, s = ∅ := by
  intro s hs
  obtain ⟨n, hn⟩ := List.mem_iff_getElem?.mp hs
  have hscope : d.scopeAt n = s := by simp [scopeAt, hn]
  apply IdSet.ext
  intro l
  simp only [IdSet.not_mem_empty, iff_false]
  rw [← hscope, mem_scopeAt_union hfiled hunion h]
  rintro ⟨loan, -, -, w, k, -, -, hcarries⟩
  have hpoint := hcarries.inRegion k hcarries.lt (Nat.le_refl k)
  rw [hempty] at hpoint
  exact IdSet.not_mem_empty _ hpoint

end Check

/-! ### Each phase in turn -/

namespace Phase

/-- All phases in order lead from `start` to `done`. -/
structure Completes (start done : Check) : Prop where
  filed : start.facts.Filed
  union : start.config.joinPolicy = .union
  regions_eq : start.regions = start.facts.regions
  empty : ∀ r, start.regions.points r = ∅
  built : start.facts.constraints start.config start.function = .ok done.constraints
  solved : start.regions.solve done.constraints = (done.regions, done.passes)
  searched : ∃ c : Check, c.function = start.function ∧ c.config = start.config ∧
    c.facts = start.facts ∧ c.regions = done.regions ∧ c.borrowCheck = some done

theorem Completes.holdsIn {start done : Check} (h : Completes start done) :
    ∀ k ∈ done.constraints, k.HoldsIn done.regions := by
  have hholds := (Regions.solve_holdsIn done.constraints start.regions).2
  rw [h.solved] at hholds
  exact hholds

theorem exists_completes {f : Function} {config : Config} {start : Check}
    (h : Check.start f config = .ok start) (hunion : config.joinPolicy = .union) :
    ∃ done, f.check config = .ok done ∧ Completes start done := by
  obtain ⟨cs, hcs, hbuild⟩ := Check.exists_buildConstraints h
  obtain ⟨hfacts, hstart⟩ := Check.start_eq_ok.mp h
  have hfunction : start.function = f := congrArg Check.function hstart
  have hconfig : start.config = config := congrArg Check.config hstart
  have hregions : start.regions = start.facts.regions := congrArg Check.regions hstart
  have hfiled := Function.facts_filed hfacts
  let solved := Check.infer { start with constraints := cs }
  obtain ⟨done, hdone⟩ := Check.exists_borrowCheck_union (c := solved) hfiled (hconfig ▸ hunion)
  obtain ⟨s, -, hlast⟩ := Check.eq_of_borrowCheck hdone
  refine ⟨done, ?_, hfiled, hconfig ▸ hunion, hregions, ?_, ?_, ?_, ?_⟩
  · rw [Function.check, bind_eq_ok.mpr ⟨start, h, hbuild⟩]
    change (Check.infer { start with constraints := cs }).borrowCheck = some done at hdone
    simp only [hdone]
  · rw [hregions]
    exact Regions.points_of_bare (Function.bare_regions hfacts)
  · rw [hfunction, hconfig, hlast]
    exact hcs
  · rw [hlast]
    rfl
  · exact ⟨solved, rfl, rfl, rfl, by rw [hlast], hdone⟩

variable {start done c : Check} {phases : List Phase}

theorem Leaves.initial {f : Function} {config : Config} (h : Check.start f config = .ok start) :
    Leaves start done [] start := by
  obtain ⟨-, hstart⟩ := Check.start_eq_ok.mp h
  refine ⟨rfl, rfl, rfl, ?_, ?_, ?_, ?_⟩
  · rw [hstart]
    rfl
  · simp
  · rw [hstart]
    simp
  · intro before hbefore
    simp at hbefore

theorem Leaves.bare (hdone : Completes start done) (h : Leaves start done phases c) :
    c.regions.bare = c.facts.regions.bare := by
  have hsolved := Regions.bare_solve done.constraints start.regions
  rw [hdone.solved] at hsolved
  rw [h.regions_eq, h.facts_eq, ← hdone.regions_eq]
  split
  · exact hsolved
  · rfl

theorem Leaves.build (hdone : Completes start done) (h : Leaves start done phases c) :
    ∃ d, step c .build = .ok d ∧ Leaves start done (phases ++ [.build]) d := by
  have hbuilt := hdone.built
  rw [← h.function_eq, ← h.config_eq, ← h.facts_eq] at hbuilt
  have hstep := Check.buildConstraints_of_bare (h.bare hdone) hbuilt
  have hinferred : [Phase.build, .infer].Sublist (phases ++ [.build]) ↔
      [Phase.build, .infer].Sublist phases := sublist_concat [.build] (by decide)
  have hsearched : [Phase.build, .infer, .search].Sublist (phases ++ [.build]) ↔
      [Phase.build, .infer, .search].Sublist phases := sublist_concat [.build, .infer] (by decide)
  refine ⟨{ c with constraints := done.constraints }, by simp only [step, hstep],
    h.function_eq, h.config_eq, h.facts_eq, ?_, ?_, ?_, ?_⟩
  · rw [if_pos (List.sublist_append_right phases [.build])]
  · simpa only [hinferred] using h.regions_eq
  · simpa only [hsearched] using h.inScope
  · intro before hbefore
    exact absurd (List.append_inj' hbefore rfl).2 (by decide)

/-- Solving makes the regions of a complete check at the first time after the constraints were
built, and changes nothing at any other. -/
theorem Leaves.solve (hdone : Completes start done) (h : Leaves start done phases c) :
    c.regions.solve c.constraints =
      (if [Phase.build].Sublist phases then done.regions else start.regions,
        if [Phase.build].Sublist phases ∧
          ¬ [Phase.build, .infer].Sublist phases then done.passes else 1) := by
  rw [h.regions_eq, h.constraints_eq]
  by_cases hbuilt : [Phase.build].Sublist phases
  · by_cases hinferred : [Phase.build, .infer].Sublist phases
    · simpa [hbuilt, hinferred] using Regions.solve_of_holdsIn hdone.holdsIn
    · simpa [hbuilt, hinferred] using hdone.solved
  · have hinferred : ¬ [Phase.build, .infer].Sublist phases :=
      fun hsub => hbuilt (.trans (by decide) hsub)
    have hnone : ∀ k ∈ ([] : List Constraint), k.HoldsIn start.regions := by simp
    simpa [hbuilt, hinferred] using Regions.solve_of_holdsIn hnone

theorem Leaves.infer (hdone : Completes start done) (h : Leaves start done phases c) :
    ∃ d, step c .infer = .ok d ∧ Leaves start done (phases ++ [.infer]) d := by
  have hbuilt : [Phase.build].Sublist (phases ++ [.infer]) ↔ [Phase.build].Sublist phases :=
    sublist_concat [] (by decide)
  have hinferred : [Phase.build, .infer].Sublist (phases ++ [.infer]) ↔
      [Phase.build].Sublist phases :=
    sublist_concat_self [.build]
  have hsearched : [Phase.build, .infer, .search].Sublist (phases ++ [.infer]) ↔
      [Phase.build, .infer, .search].Sublist phases := sublist_concat [.build, .infer] (by decide)
  have hsolve := h.solve hdone
  refine ⟨c.infer, rfl, h.function_eq, h.config_eq, h.facts_eq, ?_, ?_, ?_, ?_⟩
  · simp only [hbuilt]
    exact h.constraints_eq
  · simp only [hinferred]
    exact congrArg Prod.fst hsolve
  · simp only [hsearched]
    exact h.inScope
  · intro before hbefore
    obtain rfl := (List.append_inj' hbefore rfl).1
    exact congrArg Prod.snd hsolve

theorem Leaves.search (hdone : Completes start done) (h : Leaves start done phases c) :
    ∃ d, step c .search = .ok d ∧ Leaves start done (phases ++ [.search]) d := by
  have hbuilt : [Phase.build].Sublist (phases ++ [.search]) ↔ [Phase.build].Sublist phases :=
    sublist_concat [] (by decide)
  have hinferred : [Phase.build, .infer].Sublist (phases ++ [.search]) ↔
      [Phase.build, .infer].Sublist phases := sublist_concat [.build] (by decide)
  have hsearched : [Phase.build, .infer, .search].Sublist (phases ++ [.search]) ↔
      [Phase.build, .infer].Sublist phases := sublist_concat_self [.build, .infer]
  have hfiled : c.facts.Filed := h.facts_eq ▸ hdone.filed
  have hunion : c.config.joinPolicy = .union := h.config_eq ▸ hdone.union
  obtain ⟨d, hd⟩ := Check.exists_borrowCheck_union hfiled hunion
  obtain ⟨s, -, hlast⟩ := Check.eq_of_borrowCheck hd
  refine ⟨d, by simp only [step, hd], ?_, ?_, ?_, ?_, ?_, ?_, ?_⟩
  · rw [hlast]
    exact h.function_eq
  · rw [hlast]
    exact h.config_eq
  · rw [hlast]
    exact h.facts_eq
  · rw [hlast]
    simpa only [hbuilt] using h.constraints_eq
  · rw [hlast]
    simpa only [hinferred] using h.regions_eq
  · simp only [hsearched]
    split_ifs with hregions
    · -- the regions are those of the complete check, so its search is repeated
      obtain ⟨c', hfunction, hconfig, hfacts, hsolved, hdone'⟩ := hdone.searched
      have hsame := Check.borrowCheck_congr hdone' (h.function_eq.trans hfunction.symm)
        (h.config_eq.trans hconfig.symm) (h.facts_eq.trans hfacts.symm)
        (by rw [h.regions_eq, if_pos hregions, hsolved])
      rw [hd] at hsame
      cases hsame
      rfl
    · refine Check.inScope_of_no_points hfiled hunion ?_ hd
      rw [h.regions_eq, if_neg hregions]
      exact hdone.empty
  · intro before hbefore
    exact absurd (List.append_inj' hbefore rfl).2 (by decide)

/-- One more phase never fails, and leaves what the longer run is to leave. -/
theorem Leaves.step (hdone : Completes start done) (h : Leaves start done phases c) (p : Phase) :
    ∃ d, p.step c = .ok d ∧ Leaves start done (phases ++ [p]) d := by
  cases p with
  | build => exact h.build hdone
  | infer => exact h.infer hdone
  | search => exact h.search hdone

theorem run_concat (p : Phase) {d : Check} (hc : run start phases = .ok c) (hd : step c p = .ok d) :
    run start (phases ++ [p]) = .ok d := by
  rw [run, List.foldlM_append]
  exact bind_eq_ok.mpr ⟨c, hc, by simpa using hd⟩

/-- Whatever the order and number of phases run on a check that started, none of them fails, and
what they leave is told by their order alone. -/
theorem run_leaves {f : Function} {config : Config} (h : Check.start f config = .ok start)
    (hunion : config.joinPolicy = .union) :
    ∃ done, f.check config = .ok done ∧ (∀ r, start.regions.points r = ∅) ∧
      ∀ phases, ∃ c, run start phases = .ok c ∧ Leaves start done phases c := by
  obtain ⟨done, hcheck, hdone⟩ := exists_completes h hunion
  refine ⟨done, hcheck, hdone.empty, ?_⟩
  intro phases
  induction phases using List.reverseRecOn with
  | nil => exact ⟨start, rfl, .initial h⟩
  | append_singleton phases p ih =>
    obtain ⟨c, hc, hleaves⟩ := ih
    obtain ⟨d, hd, hnext⟩ := hleaves.step hdone p
    exact ⟨d, run_concat p hc hd, hnext⟩

/-- A search and an inference that come too early do no harm, and an inference that comes late does
nothing. -/
theorem run_leaves_cascade :
    ∃ f start done c, Fixture.cascade.toFunction 0 = .ok f ∧
      Check.start f ⟨.union, true, false⟩ = .ok start ∧ f.check ⟨.union, true, false⟩ = .ok done ∧
      run start [.search, .infer, .build, .infer, .search, .infer] = .ok c ∧
      c.regions = done.regions ∧ c.inScope = done.inScope ∧ c.passes = 1 := by
  obtain ⟨d, hd, -⟩ := (Option.any_eq_true _ _).mp Fixture.points_cascade
  obtain ⟨f, built, hfun, hbuilt, -⟩ := Fixture.inferred?_eq_some.mp hd
  obtain ⟨start, hstart, -⟩ := bind_eq_ok.mp hbuilt
  obtain ⟨done, hcheck, -, hrun⟩ := run_leaves hstart rfl
  obtain ⟨c, hc, hleaves⟩ := hrun [.search, .infer, .build, .infer, .search, .infer]
  have hpasses := hleaves.passes [.search, .infer, .build, .infer, .search] rfl
  have hscope := hleaves.inScope
  rw [if_pos (by decide)] at hscope
  rw [if_neg (by decide)] at hpasses
  refine ⟨f, start, done, c, hfun, hstart, hcheck, hc, ?_, hscope, hpasses⟩
  rw [hleaves.regions_eq, if_pos (by decide)]

end Phase

end LoanScope
