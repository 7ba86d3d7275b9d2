import LoanScope.Proofs.Check.Regions
import LoanScope.Proofs.Facts.Owners
import LoanScope.Proofs.Fixture.Facts
import LoanScope.Proofs.Function.Mentions

/-! The owners of regions in the function of a fixture. Its declarations are numbered in the order
in which they are registered, so that a region belongs to one of them or to a loan. -/

namespace LoanScope

/-- In the function of a fixture, declarations are numbered by position. -/
theorem Fixture.FunctionOf.inOrder {x : Fixture} {f : Function} {facts : Facts}
    (hof : x.FunctionOf f) (hfacts : f.facts = .ok facts) : facts.InOrder f := by
  obtain ⟨reg, hreg, hrecorded⟩ := Function.facts_recorded hfacts
  have hdeclared : facts.declared.entries.map Prod.fst = f.decls.map Decl.variable := by
    rw [hrecorded.extends.1]
    exact (Function.registry_knows hreg).map_variable
  refine ⟨hdeclared, ?_⟩
  have hvariables := hdeclared.symm.trans (hof.declared_entries hfacts).1
  have hids : f.decls.map Decl.id = List.range' 0 x.declaredNames.length := by
    rw [← map_decl_variablesFrom, ← hvariables, List.map_map]
    rfl
  have hlength : f.decls.length = x.declaredNames.length := by
    simpa using congrArg List.length hids
  rw [hids, hlength]

/-- When a check of a fixture's function starts, region `0` is `'static`, every other region is
existential, is named by its number and belongs to one level of one parameter or local variable or
to one loan, with that owner for its site; and all of these have one region, those of a declaration
in a row. -/
theorem Check.start_regionsOwned (x : Fixture) (file : FileId) (f : Function) (config : Config)
    (c : Check) (hf : x.toFunction file = .ok f) (h : Check.start f config = .ok c) :
    c.regions = c.facts.regions ∧ c.facts.RegionsOwned f := by
  obtain ⟨hfacts, hc⟩ := Check.start_eq_ok.mp h
  have hord := (Fixture.toFunction_functionOf hf).inOrder hfacts
  exact ⟨congrArg Check.regions hc, hord.regionsOwned hfacts⟩

/-- The declarations of the cascade have regions `1` to `5`. -/
theorem Fixture.loans_cascade :
    (cascade.inferred? 0 ⟨.union, true, false⟩).any fun c =>
      c.facts.loans.map Loan.region = [6, 7] := by
  have hsorted : cascade.sortedNodes = cascade.nodes := List.mergeSort_of_pairwise (by decide)
  simp only [inferred?, toFunction, plan, edges, names, hsorted]
  decide +kernel

/-- Region `6` of the cascade belongs to the loan of `x`, and to nothing else. -/
theorem Check.start_regionsOwned_cascade :
    ∃ f c loan, Fixture.cascade.toFunction 0 = .ok f ∧ Check.start f ⟨.union, true, false⟩ = .ok c ∧
      c.facts.loans[0]? = some loan ∧
      ∀ o site, c.facts.Owns f 6 o site ↔ o = .loan 0 ∧ site = .borrow loan.expr := by
  obtain ⟨d, hd, hloans⟩ := (Option.any_eq_true _ _).mp Fixture.loans_cascade
  obtain ⟨f, built, hfun, hbuilt, rfl⟩ := Fixture.inferred?_eq_some.mp hd
  obtain ⟨c, hstart, hbuild⟩ := bind_eq_ok.mp hbuilt
  obtain ⟨cs, -, hend⟩ := bind_eq_ok.mp hbuild
  cases hend
  have hregions : c.facts.loans.map Loan.region = [6, 7] := of_decide_eq_true hloans
  obtain ⟨loan, hloan, hregion⟩ : ∃ loan, c.facts.loans[0]? = some loan ∧ loan.region = 6 := by
    have hfirst := congrArg (·[0]?) hregions
    simpa using hfirst
  obtain ⟨-, howned⟩ := Check.start_regionsOwned Fixture.cascade 0 f _ c hfun hstart
  have hown : c.facts.Owns f 6 (.loan 0) (.borrow loan.expr) := .loan hloan hregion
  have hlt : 6 < c.facts.regions.size := lt_length_of_getElem? (howned.made 6 _ _ hown)
  obtain ⟨owner, -, hunique⟩ := howned.existsUnique_owner 6 (by decide) hlt
  refine ⟨f, c, loan, hfun, hstart, hloan, fun o site => ⟨fun hother => ?_, ?_⟩⟩
  · have hsame := (hunique (o, site) hother).trans (hunique (.loan 0, .borrow loan.expr) hown).symm
    simpa using hsame
  · rintro ⟨rfl, rfl⟩
    exact hown

end LoanScope
