import LoanScope.Proofs.Check.Lookups
import LoanScope.Proofs.Facts.Tidy
import LoanScope.Proofs.Fixture.Owners

/-! The list of constraints on the function of a fixture is tidy: nothing in it is idle or there
twice, all that it names exists, `'static` is asked to contain no other region, and from the first
node on it is ordered by nodes. -/

namespace LoanScope

namespace Facts

variable {facts : Facts} {f : Function}

/-- Only regions of declared types and of loans must contain others, and `'static` is none of
these. -/
theorem RegionsOwned.ne_static (howned : facts.RegionsOwned f) (htyped : facts.Typed)
    {r s : RegionId} (h : facts.MustContain r s) : r ≠ Regions.static := by
  refine (htyped.of_mustContain (P := (· ≠ Regions.static)) ?_ howned.static_not_lent ?_ h).1
  · rintro e he r hr rfl
    exact howned.static_not_declared e he hr
  · rintro r region d hr hsite rfl
    rw [howned.static] at hr
    cases hr
    cases hsite

/-- A list of constraints as it is built from the facts of a function. -/
structure Tidy (facts : Facts) (config : Config) (f : Function) (cs : List Constraint) : Prop where
  nodup : cs.Nodup
  inRange : ∀ k ∈ cs, k.InRange facts.regions.size f.graph.size
  not_self : ∀ r s p, .outlives r s p ∈ cs → r ≠ s
  not_static : ∀ r s p, .outlives r s p ∈ cs → r ≠ Regions.static
  /-- What `'static` and the parameters ask comes first, and the rest is ordered by nodes. -/
  ordered : ∃ first rest, cs = first ++ rest ∧
    (∀ k, k ∈ first ↔
      (config.staticCoversAllPoints ∧ ∃ n < f.graph.size, k = .live Regions.static n) ∨
      ∃ r region d, facts.regions.get? r = some region ∧ region.site = some (.param d) ∧
        k = .outlives r Regions.static f.graph.start) ∧
    rest.Pairwise fun a b => a.point ≤ b.point
  /-- Of all constraints only repeated and idle ones are dropped, and with them the regions would be
  the same. -/
  dropped : ∃ all, facts.allConstraints config f = .ok all ∧ cs.Sublist all ∧
    (∀ k ∈ all, k ∈ cs ∨ ∃ r p, k = .outlives r r p) ∧
    ∀ rs : Regions, (rs.solve cs).1 = (rs.solve all).1

theorem RegionsOwned.tidy (howned : facts.RegionsOwned f) (hfacts : f.facts = .ok facts)
    (hsize : f.graph.size = f.nodes.length) {config : Config} {cs : List Constraint}
    (hcs : facts.constraints config f = .ok cs) : facts.Tidy config f cs := by
  have hrange := constraints_inRange hfacts hsize hcs
  obtain ⟨all, hall, hend⟩ := bind_eq_ok.mp hcs
  have hstatic : ∀ r s p, .outlives r s p ∈ all → r ≠ Regions.static := by
    intro r s p hmem
    exact howned.ne_static (Function.facts_typed hfacts) (mustContain_of_mem hall hmem)
  -- A parameter's region is asked to contain `'static`. That is not idle: the two differ.
  have hglobal : ∀ k ∈ facts.globalConstraints config f.graph, k.isIdle = false := by
    intro k hk
    have hmem := (mem_allConstraints hall).mpr (.inl hk)
    rcases mem_globalConstraints.mp hk with ⟨-, n, -, rfl⟩ | ⟨r, region, d, -, -, rfl⟩
    · rfl
    · simp [Constraint.isIdle, hstatic _ _ _ hmem]
  have hordered := (Function.facts_filed hfacts).exists_constraints_eq hglobal hcs
  cases hend
  have hkept : ∀ {r s p}, .outlives r s p ∈ Constraint.tidy all →
      .outlives r s p ∈ all ∧ r ≠ s := by
    intro r s p hmem
    simpa [Constraint.mem_tidy, Constraint.isIdle] using hmem
  refine ⟨Constraint.nodup_tidy all, hrange, fun r s p hmem => (hkept hmem).2,
    fun r s p hmem => hstatic r s p (hkept hmem).1, ?_, all, hall, Constraint.tidy_sublist all, ?_,
    Regions.solve_tidy all⟩
  · obtain ⟨rest, heq, hascending⟩ := hordered
    exact ⟨_, rest, heq, fun k => mem_globalConstraints, hascending⟩
  · intro k hk
    cases hidle : k.isIdle with
    | true => exact .inr (Constraint.isIdle_iff.mp hidle)
    | false => exact .inl (Constraint.mem_tidy.mpr ⟨hk, hidle⟩)

end Facts

/-- Constraints can be built on the function of every fixture whose check starts, and their list is
tidy. -/
theorem Check.buildConstraints_tidy (x : Fixture) (file : FileId) (f : Function) (config : Config)
    (c : Check) (hf : x.toFunction file = .ok f) (h : Check.start f config = .ok c) :
    c.regions = c.facts.regions ∧
      ∃ cs, c.buildConstraints = .ok { c with constraints := cs } ∧ c.facts.Tidy config f cs := by
  obtain ⟨hfacts, hc⟩ := Check.start_eq_ok.mp h
  obtain ⟨cs, hcs, hbuild⟩ := Check.exists_buildConstraints h
  have hof := Fixture.toFunction_functionOf hf
  have howned := (hof.inOrder hfacts).regionsOwned hfacts
  exact ⟨congrArg Check.regions hc, cs, hbuild, howned.tidy hfacts hof.size hcs⟩

/-- Node `1` passes the parameter `q` to `p` twice and `p` to itself, and lends what `q` points to.
Node `2` returns `p`. -/
def Fixture.carousel : Fixture where
  name := "carousel"
  params := [⟨"q", .pointer (.builtin .int)⟩]
  returnTy := some (.pointer (.builtin .int))
  start := 0
  nodes :=
    [⟨0, .start, [1], [], [], none⟩,
      ⟨1, .instructions
        [.decl "p" (.pointer (.builtin .int)) (some (.var "q")),
          .expr (.assign (.var "p") (.var "q")),
          .expr (.assign (.var "p") (.var "p")),
          .decl "r" (.pointer (.builtin .int)) (some (.addrOf (.deref (.var "q"))))],
        [2], ["q"], [], none⟩,
      ⟨2, .ret (some (.var "p")), [], ["p"], [], none⟩]

theorem Fixture.constraints_carousel :
    (carousel.inferred? 0 .default).any fun c =>
      c.constraints =
        [.live 0 0, .live 0 1, .live 0 2, .outlives 1 0 0, .live 1 1, .outlives 1 2 1,
          .outlives 4 3 1, .outlives 1 4 1, .live 2 2, .outlives 2 0 2] ∧
      (c.facts.allConstraints c.config c.function).toOption.map List.length = some 12 := by
  have hsorted : carousel.sortedNodes = carousel.nodes := List.mergeSort_of_pairwise (by decide)
  simp only [inferred?, toFunction, plan, edges, names, hsorted]
  decide +kernel

/-- Of the twelve constraints of the carousel, ten are kept. -/
theorem Check.buildConstraints_tidy_carousel :
    ∃ f c cs, Fixture.carousel.toFunction 0 = .ok f ∧ Check.start f .default = .ok c ∧
      c.buildConstraints = .ok { c with constraints := cs } ∧
      (c.facts.allConstraints .default f).toOption.map List.length = some 12 ∧
      cs = [.live 0 0, .live 0 1, .live 0 2, .outlives 1 0 0, .live 1 1, .outlives 1 2 1,
        .outlives 4 3 1, .outlives 1 4 1, .live 2 2, .outlives 2 0 2] ∧
      c.facts.Tidy .default f cs := by
  obtain ⟨f, c, cs, hfun, hstart, hbuild, hlists⟩ :=
    Fixture.exists_start_of_any Fixture.constraints_carousel
  obtain ⟨-, cs', hbuild', htidy⟩ :=
    Check.buildConstraints_tidy Fixture.carousel 0 f _ c hfun hstart
  rw [hbuild] at hbuild'
  cases hbuild'
  obtain ⟨hlist, hlength⟩ := of_decide_eq_true hlists
  obtain ⟨-, hc⟩ := Check.start_eq_ok.mp hstart
  refine ⟨f, c, cs, hfun, hstart, hbuild, ?_, hlist, htidy⟩
  have hconfig : c.config = .default := congrArg Check.config hc
  have hfunction : c.function = f := congrArg Check.function hc
  simpa only [infer, hconfig, hfunction] using hlength

end LoanScope
