import LoanScope.Proofs.Check.Regions
import LoanScope.Proofs.Facts.Flows

/-! What assigned references keep alive. The inferred regions of what an assignment records as
flowing into a reference contain the reference's own. Operators keep addresses and calls recorded,
but not variables. -/

namespace LoanScope

theorem Facts.points_of_mustContain {f : Function} {facts : Facts} (hfacts : f.facts = .ok facts)
    {config : Config} {cs : List Constraint} (hcs : facts.constraints config f = .ok cs)
    {r s : RegionId} (h : facts.MustContain s r) {m : NodeId}
    (hm : m ∈ (facts.regions.solve cs).1.points r) :
    m ∈ (facts.regions.solve cs).1.points s := by
  rw [Facts.mem_points_solve hfacts hcs] at hm ⊢
  obtain ⟨t, hchain, hlive⟩ := hm
  exact ⟨t, .head h hchain, hlive⟩

namespace Check

/-- The regions of what flows into a reference with region `r`, to which node `n` assigns `value`,
contain `r`. That is the place named by the value, every place whose address is in it, and every
reference that is passed to a call in it. -/
structure Keeps (c : Check) (n : NodeId) (value : Expr) (r : RegionId) : Prop where
  place : ∀ src : TypedPlace, src.Typed c.facts.declared → value.IsPlace src.place →
    ∃ s, src.ty.region? = some s ∧ ∀ m ∈ c.regions.points r, m ∈ c.regions.points s
  address : ∀ id span operand, .unary id span .addrOf operand ∈ value.operands →
    ∃ loan ∈ c.facts.loans, loan.origin = n ∧ loan.expr = id ∧
      operand.place? = .ok (some loan.place) ∧
      ∀ m ∈ c.regions.points r, m ∈ c.regions.points loan.region
  call : ∀ id span callee args ty, .call id span callee args ty ∈ value.operands →
    ∀ arg ∈ args, ∀ src : TypedPlace, src.Typed c.facts.declared →
      arg.place? = .ok (some src.place) → ∀ s ∈ src.ty.regions,
        ∀ m ∈ c.regions.points r, m ∈ c.regions.points s

/-- The region of every variable whose value may become that of an assigned reference contains the
region of the reference. -/
def KeepsCarried (c : Check) : Prop :=
  ∀ n place value, (place, value) ∈ c.function.assignmentsAt n →
    ∀ dest src : TypedPlace, dest.Typed c.facts.declared → src.Typed c.facts.declared →
      dest.place = place → (∃ v ∈ value.carried, src.place = .var v) →
        ∀ r s, dest.ty.region? = some r → src.ty.region? = some s →
          ∀ m ∈ c.regions.points r, m ∈ c.regions.points s

theorem keeps_of_takes {f : Function} {config : Config} {c : Check}
    (h : Check.start f config = .ok c) {cs : List Constraint}
    (hcs : c.facts.constraints config f = .ok cs) {n : NodeId} {here : NodeFacts}
    (hhere : c.facts.nodes[n]? = some here) {dest : TypedPlace} {value : Expr}
    (htakes : c.facts.Takes n here dest value) {r : RegionId} (hr : dest.ty.region? = some r) :
    (Check.infer { c with constraints := cs }).Keeps n value r := by
  obtain ⟨hfacts, hc⟩ := Check.start_eq_ok.mp h
  have hregions : c.regions = c.facts.regions := congrArg Check.regions hc
  have htyped := Function.facts_typed hfacts
  have href : dest.ty.isRef := Ty.isRef_of_region? hr
  have hpoints : ∀ {a : Assignment} {s : RegionId}, a ∈ here.assignments →
      a.Relates c.facts.loans s r → ∀ m ∈ (c.regions.solve cs).1.points r,
        m ∈ (c.regions.solve cs).1.points s := by
    intro a s ha hrelates m hm
    rw [hregions] at hm ⊢
    exact Facts.points_of_mustContain hfacts hcs
      (.assignment (List.mem_of_getElem? hhere) ha hrelates) hm
  refine ⟨?_, ?_, ?_⟩
  · intro src hsrc hwhole
    obtain ⟨hsame, hmem⟩ := htakes.place src hsrc hwhole
    obtain ⟨s, hs⟩ := (htyped.placed_place hsrc).exists_region (hsame ▸ href)
    exact ⟨s, hs, hpoints (hmem href) (.place (i := 0) (by simpa using hs) (by simpa using hr))⟩
  · intro id span operand haddr
    obtain ⟨l, loan, hloan, horigin, hexpr, hplace, hmem⟩ := htakes.address id span operand haddr
    exact ⟨loan, List.mem_of_getElem? hloan, horigin, hexpr, hplace,
      hpoints hmem (.borrow hloan hr)⟩
  · intro id span callee args ty hcall arg harg src hsrc hplace s hs
    obtain ⟨found, hmem, hfound⟩ := htakes.call id span callee args ty hcall href
    have hsrcRef : src.ty.isRef := by
      cases hty : src.ty with
      | builtin _ _ => simp [hty, Ty.regions] at hs
      | ref _ _ _ _ _ => rfl
    exact hpoints hmem (.call (hfound arg harg src hsrc hplace hsrcRef) hs hr)

/-- Inferred regions keep what flows into an assigned reference: a variable or a dereference that is
the whole value, and all addresses and calls that operators compute the value from. A place flows
into a reference only as a whole value. -/
theorem infer_keeps (f : Function) (config : Config) (c : Check)
    (h : Check.start f config = .ok c) :
    ∃ built, c.buildConstraints = .ok built ∧
      (∀ n place value, (place, value) ∈ f.assignmentsAt n →
        ∃ dest : TypedPlace, dest.place = place ∧ dest.Typed c.facts.declared ∧
          ∀ r, dest.ty.region? = some r → built.infer.Keeps n value r) ∧
      ∀ n here, c.facts.nodes[n]? = some here → ∀ dest src : TypedPlace,
        ⟨dest, .place src⟩ ∈ here.assignments ↔
          dest.Typed c.facts.declared ∧ dest.ty.isRef ∧ src.Typed c.facts.declared ∧
            ∃ value, (dest.place, value) ∈ f.assignmentsAt n ∧ value.IsPlace src.place := by
  obtain ⟨cs, hcs, hbuild⟩ := Check.exists_buildConstraints h
  obtain ⟨hfacts, -⟩ := Check.start_eq_ok.mp h
  refine ⟨_, hbuild, ?_, ?_⟩
  · intro n place value hvalue
    obtain ⟨here, dest, hhere, hplace, hdest, htakes⟩ := Function.exists_takes hfacts hvalue
    exact ⟨dest, hplace, hdest, fun r hr => keeps_of_takes h hcs hhere htakes hr⟩
  · intro n here hhere dest src
    exact Function.mem_assignments_iff hfacts hhere

end Check

/-! ### Operators on references -/

namespace Fixture

/-- Node `1` assigns `&x + 1` to `q` and `q + 1` to `p`. Behind it `q` is live, and then only
`p`. -/
def shifted : Fixture where
  name := "shifted"
  params := [⟨"x", .builtin .int⟩]
  returnTy := none
  start := 0
  nodes :=
    [⟨0, .start, [1], [], [], none⟩,
      ⟨1, .instructions
        [.decl "q" (.pointer (.builtin .int))
          (some (.binary .add (.addrOf (.var "x")) (.lit (.int 1)))),
          .decl "p" (.pointer (.builtin .int)) (some (.binary .add (.var "q") (.lit (.int 1))))],
        [2], [], [], none⟩,
      ⟨2, .jump, [3], ["q"], [], none⟩,
      ⟨3, .jump, [4], ["p"], [], none⟩,
      ⟨4, .finish, [], [], [], none⟩]

theorem sortedNodes_shifted : shifted.sortedNodes = shifted.nodes :=
  List.mergeSort_of_pairwise (by decide)

theorem assignmentsAt_shifted {f : Function} (h : shifted.toFunction 0 = .ok f) :
    f.assignmentsAt 1 =
      [(.var ⟨1, "q"⟩, .binary 3 (.detached 0) .add
          (.unary 1 (.detached 0) .addrOf (.var 0 (.detached 0) ⟨0, "x"⟩))
          (.lit 2 (.detached 0) (.int 1))),
        (.var ⟨2, "p"⟩, .binary 6 (.detached 0) .add (.var 4 (.detached 0) ⟨1, "q"⟩)
          (.lit 5 (.detached 0) (.int 1)))] := by
  simp only [toFunction, plan, edges, names, sortedNodes_shifted] at h
  cases h
  rfl

/-- Region `1` is that of `q`, and region `2` that of `p`. -/
theorem inferred?_shifted :
    (shifted.inferred? 0 .default).any fun c =>
      (c.facts.declared.get? 1).bind Ty.region? = some 1 ∧
        (c.facts.declared.get? 2).bind Ty.region? = some 2 ∧
        2 ∈ c.regions.points 1 ∧ 3 ∈ c.regions.points 2 ∧ 3 ∉ c.regions.points 1 := by
  simp only [inferred?, toFunction, plan, edges, names, sortedNodes_shifted]
  decide +kernel

/-- The check of `shifted` up to its regions, with the typed places `q` and `p`. -/
theorem exists_shifted :
    ∃ f c built, ∃ q p : TypedPlace, shifted.toFunction 0 = .ok f ∧ Check.start f .default = .ok c ∧
      c.buildConstraints = .ok built ∧ built.function = f ∧ built.facts = c.facts ∧
      (q.place = .var ⟨1, "q"⟩ ∧ q.Typed c.facts.declared ∧ q.ty.region? = some 1) ∧
      (p.place = .var ⟨2, "p"⟩ ∧ p.Typed c.facts.declared ∧ p.ty.region? = some 2) ∧
      2 ∈ built.infer.regions.points 1 ∧ 3 ∈ built.infer.regions.points 2 ∧
      3 ∉ built.infer.regions.points 1 := by
  obtain ⟨f, c, cs, hfun, hstart, hbuild, hchecked⟩ := exists_start_of_any inferred?_shifted
  have hfunction : c.function = f := congrArg Check.function (Check.start_eq_ok.mp hstart).2
  obtain ⟨hq, hp, hpoints⟩ := of_decide_eq_true hchecked
  obtain ⟨qty, hqty, hqr⟩ := Option.bind_eq_some_iff.mp hq
  obtain ⟨pty, hpty, hpr⟩ := Option.bind_eq_some_iff.mp hp
  have htyped : ∀ {v : Variable} {ty : Ty}, c.facts.declared.get? v.decl = some ty →
      TypedPlace.Typed c.facts.declared ⟨.var v, ty⟩ := by
    intro v ty hty
    rw [TypedPlace.Typed, Place.typeIn, hty]
  exact ⟨f, c, _, ⟨.var ⟨1, "q"⟩, qty⟩, ⟨.var ⟨2, "p"⟩, pty⟩, hfun, hstart, hbuild, hfunction, rfl,
    ⟨rfl, htyped hqty, hqr⟩, ⟨rfl, htyped hpty, hpr⟩, hpoints⟩

end Fixture

/-- The loan of `x` reaches node `2` through the operator in `&x + 1`. Neither variable is recorded
as flowing anywhere. -/
theorem Check.infer_keeps_shifted :
    ∃ f c built, Fixture.shifted.toFunction 0 = .ok f ∧ Check.start f .default = .ok c ∧
      c.buildConstraints = .ok built ∧
      (∃ loan ∈ c.facts.loans, loan.place = .var ⟨0, "x"⟩ ∧
        2 ∈ built.infer.regions.points loan.region) ∧
      ∀ here, c.facts.nodes[1]? = some here →
        ∀ dest src, ⟨dest, .place src⟩ ∉ here.assignments := by
  obtain ⟨f, c, built, q, p, hfun, hstart, hbuild, -, hfacts, ⟨hq, hqty, hqr⟩, -, hlive, -, -⟩ :=
    Fixture.exists_shifted
  have hassigns := Fixture.assignmentsAt_shifted hfun
  obtain ⟨built', hbuild', hkeeps, honly⟩ := Check.infer_keeps f .default c hstart
  rw [hbuild] at hbuild'
  cases hbuild'
  refine ⟨f, c, built, hfun, hstart, hbuild, ?_, ?_⟩
  · obtain ⟨dest, hdest, hdestTy, hregion⟩ :=
      hkeeps 1 _ _ (by rw [hassigns]; exact List.mem_cons_self)
    cases hqty.unique hdestTy (hq.trans hdest.symm)
    obtain ⟨loan, hloan, -, -, hplace, hpoints⟩ := (hregion 1 hqr).address 1 _ _ List.mem_cons_self
    have hx : loan.place = .var ⟨0, "x"⟩ := by simpa [Expr.place?] using hplace.symm
    exact ⟨loan, hfacts ▸ hloan, hx, hpoints 2 hlive⟩
  · intro here hhere dest src hmem
    obtain ⟨-, -, -, value, hvalue, hwhole⟩ := (honly 1 here hhere dest src).mp hmem
    have hshape := hwhole.shape
    rw [hassigns, List.mem_pair, Prod.mk.injEq, Prod.mk.injEq] at hvalue
    rcases hvalue with ⟨-, rfl⟩ | ⟨-, rfl⟩
    · cases hshape
    · cases hshape

/-- At node `3` `p` is live, but the region of `q`, from which `p` was computed, has ended. -/
theorem Check.not_keepsCarried_shifted :
    ∃ f c built, Fixture.shifted.toFunction 0 = .ok f ∧ Check.start f .default = .ok c ∧
      c.buildConstraints = .ok built ∧ ¬ built.infer.KeepsCarried := by
  obtain ⟨f, c, built, q, p, hfun, hstart, hbuild, hfunction, hfacts, ⟨hq, hqty, hqr⟩,
    ⟨hp, hpty, hpr⟩, -, hlive, hended⟩ := Fixture.exists_shifted
  obtain ⟨value, hvalue, hcarried⟩ :
      ∃ value, (Place.var ⟨2, "p"⟩, value) ∈ built.function.assignmentsAt 1 ∧
        (⟨1, "q"⟩ : Variable) ∈ value.carried := by
    rw [hfunction, Fixture.assignmentsAt_shifted hfun]
    exact ⟨_, List.mem_cons_of_mem _ List.mem_cons_self, List.mem_cons_self⟩
  rw [← hfacts] at hqty hpty
  refine ⟨f, c, built, hfun, hstart, hbuild, ?_⟩
  intro hkeeps
  exact hended (hkeeps 1 _ value hvalue p q hpty hqty hp ⟨_, hcarried, hq⟩ 2 1 hpr hqr 3 hlive)

end LoanScope
