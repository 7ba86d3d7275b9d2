import LoanScope.Proofs.Check.Regions
import LoanScope.Proofs.Facts.Agreement

/-! When a check starts, the facts that it works on agree with each other. -/

namespace LoanScope

/-- The facts of every function that a check accepts are consistent. The loans of the nodes, one
node after the other, are `0`, `1` and so on, with none left out. Each loan has its position for its
number, is listed at its origin and nowhere else, has the kind of the reference that it was made
for, and is the source of one assignment in the whole function; that assignment is at its origin,
its destination has the loan's declared type, and the origin accesses the loan's place deeply, for
writing exactly if the loan is mutable. All recorded types are those that the declarations give the
places. Assigned, moved and returned places are references with regions, copied places are builtin,
and the moves of a node are its assignments from places, in order. -/
theorem Check.start_consistent (f : Function) (config : Config) (c : Check)
    (h : Check.start f config = .ok c) : c.facts.Consistent := by
  obtain ⟨hfacts, -⟩ := Check.start_eq_ok.mp h
  constructor
  · exact Facts.flatMap_loans hfacts
  · intro i loan hloan
    exact Facts.loan_consistent hfacts hloan
  · intro here hhere
    exact Facts.node_consistent hfacts hhere

/-- Node `1` lends `x` to `p`, moves `p` to `s` and copies `x` to `y`. Node `2` lends `x` to `q`,
which may only read it, and calls a function with `s` and `y`. Node `3` returns `s`. -/
def Fixture.barter : Fixture where
  name := "barter"
  params := [⟨"x", .builtin .int⟩]
  returnTy := some (.pointer (.builtin .int))
  start := 0
  nodes :=
    [⟨0, .start, [1], [], [], none⟩,
      ⟨1, .instructions
        [.decl "p" (.pointer (.builtin .int)) (some (.addrOf (.var "x"))),
          .decl "s" (.pointer (.builtin .int)) (some (.var "p")),
          .decl "y" (.builtin .int) (some (.var "x"))], [2], [], [], none⟩,
      ⟨2, .instructions
        [.decl "q" (.pointer (.qualified ⟨true, false, false⟩ (.builtin .int)))
            (some (.addrOf (.var "x"))),
          .decl "t" (.pointer (.builtin .int)) (some (.call "pick" [.var "s", .var "y"] none))],
        [3], [], [], none⟩,
      ⟨3, .ret (some (.var "s")), [], [], [], none⟩]

theorem Fixture.facts_barter :
    (barter.inferred? 0 .default).any fun c =>
      c.facts.loans.map (fun l => (l.kind, l.origin)) = [(.mutable, 1), (.shared, 2)] ∧
        c.facts.nodes.map (fun here => (here.copies.length, here.moves.length,
            here.assignments.length, here.returns.length)) =
          [(0, 0, 0, 0), (1, 1, 2, 0), (0, 0, 2, 0), (0, 0, 0, 1)] := by
  have hsorted : barter.sortedNodes = barter.nodes := List.mergeSort_of_pairwise (by decide)
  simp only [inferred?, toFunction, plan, edges, names, hsorted]
  decide +kernel

/-- All kinds of facts arise in `barter`, and they are consistent. -/
theorem Check.start_consistent_barter :
    ∃ f c, Fixture.barter.toFunction 0 = .ok f ∧ Check.start f .default = .ok c ∧
      c.facts.loans.map (fun l => (l.kind, l.origin)) = [(.mutable, 1), (.shared, 2)] ∧
      c.facts.nodes.map (fun here => (here.copies.length, here.moves.length,
          here.assignments.length, here.returns.length)) =
        [(0, 0, 0, 0), (1, 1, 2, 0), (0, 0, 2, 0), (0, 0, 0, 1)] ∧
      c.facts.Consistent := by
  obtain ⟨d, hd, hfacts⟩ := (Option.any_eq_true _ _).mp Fixture.facts_barter
  obtain ⟨f, built, hfun, hbuilt, rfl⟩ := Fixture.inferred?_eq_some.mp hd
  obtain ⟨c, hstart, hbuild⟩ := bind_eq_ok.mp hbuilt
  obtain ⟨cs, -, hend⟩ := bind_eq_ok.mp hbuild
  cases hend
  obtain ⟨hloans, hnodes⟩ := of_decide_eq_true hfacts
  exact ⟨f, c, hfun, hstart, hloans, hnodes, Check.start_consistent f _ c hstart⟩

end LoanScope
