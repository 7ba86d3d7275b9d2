import LoanScope.Proofs.Check.Lookups
import LoanScope.Proofs.Check.Within
import LoanScope.Proofs.Facts.Faults
import LoanScope.Proofs.Fixture.SameCode
import LoanScope.Proofs.Function.Fetch

/-! Where the check of a fixture's function can fail: only when its facts are recorded, and there
not for want of a declaration. So faults depend on what the nodes do and on nothing else. -/

namespace LoanScope

/-! ### Recording -/

theorem Registry.Knows.exists_get? {r : Registry} {decls : List Decl} (h : r.Knows decls) {d : Decl}
    (hd : d ∈ decls) : ∃ ty, r.declared.get? d.id = some ty := by
  have hmem : d.variable ∈ r.declared.entries.map Prod.fst := by
    rw [h.map_variable]
    exact List.mem_map_of_mem hd
  obtain ⟨e, he, hvariable⟩ := List.mem_map.mp hmem
  exact Declared.exists_get?.mpr ⟨e, he, by simp [hvariable, Decl.variable]⟩

namespace Function

variable {f : Function} {known : String → Prop} {r : Registry}

/-- The declarations of all variables are registered before nodes are recorded, whichever node has
them. -/
theorem LaidOut.scoped (h : f.LaidOut) (hbody : f.body.WellFormed known) (hr : f.registry = .ok r) :
    ∀ node ∈ f.nodes, node.step.Scoped r.declared := by
  have hknows : r.Knows f.body.decls.toList := h.decls ▸ Function.registry_knows hr
  intro node hnode
  refine ⟨?_, ?_⟩
  · intro e he part hpart v hv
    have hmem : part ∈ f.body.exprs.toList := by
      rw [h.exprs, Expr.listParts_eq_flatMap]
      exact List.mem_flatMap.mpr ⟨e, List.mem_flatMap.mpr ⟨node, hnode, he⟩, hpart⟩
    -- Its variable has a declaration in the body, under the number that it is registered with.
    obtain ⟨-, hstored⟩ := hbody.exprs _ part (hbody.getElem?_expr hmem).2
    obtain ⟨d, hd, -⟩ := hstored.target v hv
    rw [← (hbody.decls _ d hd).1]
    exact hknows.exists_get? (Array.mem_toList_iff.mpr (Array.mem_of_getElem? hd))
  · intro d hd
    refine hknows.exists_get? ?_
    rw [h.decls]
    exact List.mem_append_right _ (List.mem_flatMap.mpr ⟨node, hnode, hd⟩)

/-- A check faults exactly if recording does. -/
theorem check_eq_fault {config : Config} {e : Fault} :
    f.check config = .error (.fault e) ↔ f.facts = .error e := by
  cases hfacts : f.facts with
  | error e' =>
      have hstart : Check.start f config >>= Check.buildConstraints = .error e' := by
        rw [Check.start, hfacts]
        rfl
      simp [Function.check, hstart]
  | ok facts =>
      obtain ⟨c, hc, -, -⟩ := Check.exists_built hfacts config
      cases hsearch : c.infer.borrowCheck <;> simp [Function.check, hc, hsearch]

end Function

namespace Place

variable {d : Declared} {p q : Place} {t : Ty}

/-- What is dereferenced on the way to a place with a type is a reference. -/
theorem exists_isRef_of_mem_prefixes (hq : q.typeIn d = .ok t) (h : p.deref ∈ q.prefixes) :
    ∃ s, p.typeIn d = .ok s ∧ s.isRef := by
  obtain ⟨s, hs⟩ := exists_typeIn_of_mem_prefixes hq h
  obtain ⟨kind, region, isConst, isRestrict, hp⟩ := typeIn_deref.mp hs
  exact ⟨_, hp, rfl⟩

end Place

/-! ### Fixtures -/

namespace Fixture

/-- For the function of a fixture: no check fails to start for want of a declaration. Once a check
has started, every reference that a lent place is reached through has a type, and whatever phases
are run, constraints can be built and all numbers lead to nodes, loans and regions that there are.
Faults are the same for all configurations, and for all fixtures whose nodes do the same, whatever
their edges and what is live. All numbers and names in the function itself lead to the parts and
symbols that they stand for, so that the trees which recording walks are those that are fetched by
number; and its nodes are those of its graph. -/
theorem check_faults (x : Fixture) (file : FileId) (f : Function) (hf : x.toFunction file = .ok f) :
    (∀ config e, Check.start f config = .error e →
      ∀ name, e.cause ≠ .type (.unknownDeclaration name)) ∧
    (∀ config c, Check.start f config = .ok c →
      (∀ loan ∈ c.facts.loans, ∀ base, Place.deref base ∈ loan.place.prefixes →
        ∃ ty, base.typeIn c.facts.declared = .ok ty ∧ ty.isRef) ∧
      ∀ phases d, Phase.run c phases = .ok d → d.InRange f ∧
        ∃ built, d.buildConstraints = .ok built) ∧
    (∀ y g config config' e, x.SameCode y → y.toFunction file = .ok g →
      (f.check config = .error (.fault e) ↔ g.check config' = .error (.fault e))) ∧
    f.WellFormed ∧ f.fetch? = some f ∧ f.graph.size = f.nodes.length := by
  have hwell := (toFunction_wellFormed hf).1
  have hsize := (toFunction_functionOf hf).size
  refine ⟨?_, ?_, ?_, hwell, hwell.fetch?, hsize⟩
  · intro config e he
    have hscoped := fun r hr => (toFunction_laidOut hf).scoped (r := r) hwell.body hr
    have hstart : FailsOnly Fault.NotUndeclared (Check.start f config) :=
      (Function.facts_failsOnly hscoped).bind fun _ _ => .ok _
    exact (hstart e he).cause_ne
  · intro config c hc
    refine ⟨?_, ?_⟩
    · intro loan hloan base hbase
      have htyped := Function.facts_typed (Check.start_eq_ok.mp hc).1
      exact Place.exists_isRef_of_mem_prefixes (htyped.loans loan hloan).place hbase
    · intro phases d hd
      have hrange := (Check.InRange.of_start hc hsize).run hsize hd
      obtain ⟨cs, -, hbuild⟩ := hrange.exists_buildConstraints
      exact ⟨hrange, _, hbuild⟩
  · intro y g config config' e hsame hg
    rw [Function.check_eq_fault, Function.check_eq_fault, (hsame.toFunction hf hg).facts]

/-- Node `1` lends what `p` points to on to `q`. -/
def onward : Fixture where
  name := "onward"
  params := [⟨"p", .pointer (.builtin .int)⟩]
  returnTy := none
  start := 0
  nodes := [
    ⟨0, .start, [1], [], [], none⟩,
    ⟨1, .instructions [.decl "q" (.pointer (.builtin .int)) (some (.addrOf (.deref (.var "p"))))],
      [2], ["p"], ["q"], none⟩,
    ⟨2, .finish, [], ["q"], [], none⟩]

/-- The same nodes on a cycle, with nothing live. -/
def onwardAround : Fixture :=
  { onward with nodes := onward.nodes.map fun n =>
    { n with succ := [0, 1, 2], liveIn := [], liveOut := [] } }

theorem sameCode_onward : onward.SameCode onwardAround := by
  refine ⟨rfl, rfl, onward.nodes, .refl _, ?_⟩
  refine .cons ?_ (.cons ?_ (.cons ?_ .nil))
  all_goals exact ⟨rfl, rfl, rfl⟩

theorem places_onward :
    (onward.inferred? 0 ⟨.intersection, true, true⟩).any fun c =>
      c.facts.loans.map Loan.place = [.deref (.var ⟨0, "p"⟩)] := by
  have hsorted : onward.sortedNodes = onward.nodes := List.mergeSort_of_pairwise (by decide)
  simp only [inferred?, toFunction, plan, edges, names, hsorted]
  decide +kernel

/-- The reference that the loan goes through is typed, and a fixture that only has other edges has
no faults. -/
theorem check_faults_onward :
    onward.SameCode onwardAround ∧ ∃ f g c loan, onward.toFunction 0 = .ok f ∧
      onwardAround.toFunction 0 = .ok g ∧
      Check.start f ⟨.intersection, true, true⟩ = .ok c ∧ loan ∈ c.facts.loans ∧
      Place.deref (.var ⟨0, "p"⟩) ∈ loan.place.prefixes ∧
      (∃ ty, (Place.var ⟨0, "p"⟩).typeIn c.facts.declared = .ok ty ∧ ty.isRef) ∧
      (∀ phases d, Phase.run c phases = .ok d → d.InRange f) ∧
      ∀ config e, g.check config ≠ .error (.fault e) := by
  obtain ⟨d, hd, hplaces⟩ := (Option.any_eq_true _ _).mp places_onward
  obtain ⟨f, built, hfun, hbuilt, rfl⟩ := inferred?_eq_some.mp hd
  obtain ⟨c, hstart, hbuild⟩ := bind_eq_ok.mp hbuilt
  obtain ⟨cs, -, hend⟩ := bind_eq_ok.mp hbuild
  cases hend
  have hlent : c.facts.loans.map Loan.place = [.deref (.var ⟨0, "p"⟩)] := of_decide_eq_true hplaces
  obtain ⟨loan, hloan, hplace⟩ : ∃ loan ∈ c.facts.loans, loan.place = .deref (.var ⟨0, "p"⟩) := by
    have hmem : Place.deref (.var ⟨0, "p"⟩) ∈ c.facts.loans.map Loan.place := by simp [hlent]
    simpa using hmem
  obtain ⟨g, hg⟩ := sameCode_onward.exists_toFunction hfun
    ⟨by decide, by simp [onwardAround, onward]⟩
  obtain ⟨-, hstarted, hsame, -, -⟩ := check_faults onward 0 f hfun
  obtain ⟨htyped, hruns⟩ := hstarted _ c hstart
  have hprefix : Place.deref (.var ⟨0, "p"⟩) ∈ loan.place.prefixes := by
    simp [hplace, Place.prefixes]
  refine ⟨sameCode_onward, f, g, c, loan, hfun, hg, hstart, hloan, hprefix,
    htyped loan hloan _ hprefix, fun phases d hrun => (hruns phases d hrun).1, ?_⟩
  intro config e hfault
  have hfacts := Function.check_eq_fault.mp
    ((hsame onwardAround g config config e sameCode_onward hg).mpr hfault)
  rw [(Check.start_eq_ok.mp hstart).1] at hfacts
  cases hfacts

end Fixture

end LoanScope
