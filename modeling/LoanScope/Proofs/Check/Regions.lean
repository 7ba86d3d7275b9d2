import LoanScope.Proofs.Facts.Outlives
import LoanScope.Proofs.Fixture.Inferred

/-! The regions that a check infers: a node is in a region exactly if what the region must contain,
directly or through others, is live there. -/

namespace LoanScope

theorem Regions.points_of_bare {rs : Regions} (h : rs.bare = rs) (r : RegionId) :
    rs.points r = ∅ := by
  rw [← h, points, get?, bare, List.getElem?_map]
  cases rs.toList[r]? <;> rfl

namespace Check

variable {f : Function} {config : Config} {c : Check}

theorem start_eq_ok :
    Check.start f config = .ok c ↔ f.facts = .ok c.facts ∧
      c = { function := f, config, facts := c.facts, regions := c.facts.regions, constraints := []
            passes := 0, inScope := c.facts.nodes.map fun _ => ∅, visits := 0 } := by
  rw [start, bind_eq_ok]
  constructor
  · rintro ⟨facts, hfacts, hend⟩
    cases hend
    exact ⟨hfacts, rfl⟩
  · rintro ⟨hfacts, hc⟩
    exact ⟨c.facts, hfacts, congrArg _ hc.symm⟩

end Check

namespace Facts

variable {f : Function} {facts : Facts} (hfacts : f.facts = .ok facts)

include hfacts

/-- The chains of constraints are the chains of regions that must contain each other. -/
theorem reflTransGen_links {config : Config} {all : List Constraint}
    (h : facts.allConstraints config f = .ok all) {r s : RegionId} :
    Relation.ReflTransGen (Constraint.Links (Constraint.tidy all) facts.regions.size) r s ↔
      Relation.ReflTransGen facts.MustContain r s := by
  have htyped := Function.facts_typed hfacts
  constructor
  · refine Relation.ReflTransGen.mono ?_ r s
    rintro a b ⟨-, -, p, hp⟩
    exact mustContain_of_mem h (Constraint.mem_tidy.mp hp).1
  · intro hchain
    induction hchain with
    | refl => exact .refl
    | @tail b c _ hbc ih =>
        obtain ⟨hb, hc⟩ := htyped.lt_of_mustContain (Function.static_lt_size hfacts) hbc
        obtain ⟨p, hp⟩ :=
          htyped.exists_mem_of_mustContain h (Function.facts_filed hfacts) (length_nodes hfacts) hbc
        -- A region that must contain itself gives no constraint, and needs none.
        by_cases heq : b = c
        · exact heq ▸ ih
        · exact ih.tail ⟨hb, hc, p, Constraint.mem_tidy.mpr ⟨hp, by simp [Constraint.isIdle, heq]⟩⟩

/-- What the facts call for at a node, the solved regions contain, and nothing else. -/
theorem mem_points_solve {config : Config} {cs : List Constraint}
    (h : facts.constraints config f = .ok cs) {r : RegionId} {n : NodeId} :
    n ∈ (facts.regions.solve cs).1.points r ↔
      ∃ s, Relation.ReflTransGen facts.MustContain r s ∧
        (facts.LiveAt f n s ∨ s = Regions.static ∧ n < f.graph.size ∧
          config.staticCoversAllPoints) := by
  have htyped := Function.facts_typed hfacts
  have hempty := Regions.points_of_bare (Function.bare_regions hfacts)
  obtain ⟨all, hall, hend⟩ := bind_eq_ok.mp h
  cases hend
  have hlive : ∀ s, .live s n ∈ Constraint.tidy all ↔
      facts.LiveAt f n s ∨ s = Regions.static ∧ n < f.graph.size ∧
        config.staticCoversAllPoints := by
    intro s
    rw [Constraint.mem_tidy, htyped.live_mem_iff hall (length_nodes hfacts)]
    simp [Constraint.isIdle]
  rw [Regions.mem_points_solve, Regions.Due]
  simp only [reflTransGen_links hfacts hall, hempty, IdSet.not_mem_empty, false_or, hlive]
  constructor
  · rintro ⟨s, hchain, -, hs⟩
    exact ⟨s, hchain, hs⟩
  · rintro ⟨s, hchain, hs⟩
    refine ⟨s, hchain, ?_, hs⟩
    rcases hs with ⟨_, _, e, he, _, hregion⟩ | ⟨rfl, _⟩
    · exact (htyped.placed e he).lt_of_mem_regions hregion
    · exact Function.static_lt_size hfacts

end Facts

/-- A started check can build its constraints. -/
theorem Check.exists_buildConstraints {f : Function} {config : Config} {c : Check}
    (h : Check.start f config = .ok c) :
    ∃ cs, c.facts.constraints config f = .ok cs ∧
      c.buildConstraints = .ok { c with constraints := cs } := by
  obtain ⟨hfacts, hc⟩ := Check.start_eq_ok.mp h
  obtain ⟨cs, hcs⟩ := (Function.facts_typed hfacts).exists_constraints config f
  refine ⟨cs, hcs, ?_⟩
  rw [hc]
  exact bind_eq_ok.mpr ⟨_, hcs, rfl⟩

/-- Inferred regions are the closure of the facts: a node is in a region exactly if the region must
contain, directly or through others, one that is live at the node, or `'static` if that covers the
graph. -/
theorem Check.infer_closure (f : Function) (config : Config) (c : Check)
    (h : Check.start f config = .ok c) :
    ∃ built, c.buildConstraints = .ok built ∧ ∀ r n,
      n ∈ built.infer.regions.points r ↔
        ∃ s, Relation.ReflTransGen c.facts.MustContain r s ∧
          (c.facts.LiveAt f n s ∨
            s = Regions.static ∧ n < f.graph.size ∧ config.staticCoversAllPoints) := by
  obtain ⟨cs, hcs, hbuild⟩ := Check.exists_buildConstraints h
  obtain ⟨hfacts, hc⟩ := Check.start_eq_ok.mp h
  have hregions : c.regions = c.facts.regions := congrArg Check.regions hc
  refine ⟨_, hbuild, fun r n => ?_⟩
  rw [infer, hregions]
  exact Facts.mem_points_solve hfacts hcs

/-- Node `1` lends `x` to `p`, and `p` to `pp`, which is passed on to `qq`. Only `qq` is live behind
it. -/
def Fixture.cascade : Fixture where
  name := "cascade"
  params := [⟨"x", .builtin .int⟩]
  returnTy := none
  start := 0
  nodes :=
    [⟨0, .start, [1], [], [], none⟩,
      ⟨1, .instructions
        [.decl "p" (.pointer (.builtin .int)) (some (.addrOf (.var "x"))),
          .decl "pp" (.pointer (.pointer (.builtin .int))) (some (.addrOf (.var "p"))),
          .decl "qq" (.pointer (.pointer (.builtin .int))) (some (.var "pp"))], [2], [], [], none⟩,
      ⟨2, .finish, [], ["qq"], [], none⟩]

/-- The loan of `x` has region `6`. -/
theorem Fixture.points_cascade :
    (cascade.inferred? 0 ⟨.union, true, false⟩).any fun c => 2 ∈ c.regions.points 6 := by
  have hsorted : cascade.sortedNodes = cascade.nodes := List.mergeSort_of_pairwise (by decide)
  simp only [inferred?, toFunction, plan, edges, names, hsorted]
  decide +kernel

/-- What keeps the loan of `x` alive is the inner reference of `qq`, two assignments away. -/
theorem Check.infer_closure_cascade :
    ∃ f c, Fixture.cascade.toFunction 0 = .ok f ∧ Check.start f ⟨.union, true, false⟩ = .ok c ∧
      ∃ s, Relation.ReflTransGen c.facts.MustContain 6 s ∧ c.facts.LiveAt f 2 s := by
  obtain ⟨d, hd, hpoint⟩ := (Option.any_eq_true _ _).mp Fixture.points_cascade
  obtain ⟨f, built, hfun, hbuilt, rfl⟩ := Fixture.inferred?_eq_some.mp hd
  obtain ⟨c, hstart, hbuild⟩ := bind_eq_ok.mp hbuilt
  obtain ⟨built', hbuild', hclosure⟩ := Check.infer_closure f _ c hstart
  rw [hbuild] at hbuild'
  cases hbuild'
  obtain ⟨s, hchain, hlive | ⟨-, -, hcovers⟩⟩ := (hclosure 6 2).mp (by simpa using hpoint)
  · exact ⟨f, c, hfun, hstart, s, hchain, hlive⟩
  · cases hcovers

end LoanScope
