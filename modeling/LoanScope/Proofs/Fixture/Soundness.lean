import LoanScope.Proofs.Check.InScope
import LoanScope.Proofs.Fixture.Holders

/-! Borrows are tracked from the fixture to the report: while a variable that may hold a reference
is live, the loan made with the reference is reported in scope. -/

namespace LoanScope

/-! ### What a report says of a check -/

theorem LoanId.text_inj {l m : LoanId} : LoanId.text l = LoanId.text m ↔ l = m := by
  refine ⟨fun h => ?_, congrArg LoanId.text⟩
  have hdigits : Nat.toDigits 10 l = Nat.toDigits 10 m := by
    have hchars := congrArg String.toList h
    simpa [LoanId.text, Nat.repr_eq_ofList_toDigits] using hchars
  have hvalue := congrArg (Nat.ofDigitChars 10 · 0) hdigits
  simpa only [Nat.ofDigitChars_ten_toDigits] using hvalue

namespace Check

/-- The summary of a node is at its number. -/
theorem getElem?_nodes_report {d : Check} {n : NodeId} {s : NodeSummary}
    (h : d.report.nodes[n]? = some s) :
    s.id = n ∧ s.inScope = (d.scopeAt n).toList.map LoanId.text := by
  simp only [report, List.getElem?_map, List.getElem?_zipIdx, Option.map_map,
    Option.map_eq_some_iff, List.getElem?_zip_eq_some] at h
  obtain ⟨⟨node, inScope⟩, ⟨-, hscope⟩, rfl⟩ := h
  simp [scopeAt, hscope]

theorem inScopeAt_report {d : Check} (hlength : d.facts.nodes.length = d.inScope.length)
    (n : NodeId) : d.report.inScopeAt n = (d.scopeAt n).toList.map LoanId.text := by
  have hsize : d.report.nodes.length = d.inScope.length := by simp [report, hlength]
  rw [Report.inScopeAt]
  cases hfind : d.report.nodes.find? (·.id = n) with
  | some s =>
      obtain ⟨i, hi⟩ := List.mem_iff_getElem?.mp (List.mem_of_find?_eq_some hfind)
      obtain ⟨hid, hscope⟩ := getElem?_nodes_report hi
      have hn : s.id = n := by simpa using List.find?_some hfind
      rw [← hn, hid]
      exact hscope
  | none =>
      have hout : d.inScope[n]? = none := by
        rw [List.getElem?_eq_none_iff, ← hsize]
        refine Nat.le_of_not_lt fun hlt => ?_
        have hnode := List.getElem?_eq_getElem hlt
        have hnot := List.find?_eq_none.mp hfind _ (List.mem_of_getElem? hnode)
        simp [(getElem?_nodes_report hnode).1] at hnot
      rw [scopeAt, hout]
      rfl

/-- The report has one entry with the id of a loan, and it tells of this loan. -/
theorem exists_unique_loan_report {d : Check} (hfiled : d.facts.Filed) {l : LoanId} {loan : Loan}
    (hloan : d.facts.loans[l]? = some loan) :
    ∃ entry ∈ d.report.loans, entry.id = LoanId.text l ∧ entry.origin = loan.origin ∧
      entry.place = loan.place.text ∧
      ∀ other ∈ d.report.loans, other.id = LoanId.text l → other = entry := by
  refine ⟨_, List.mem_map_of_mem (List.mem_of_getElem? hloan),
    congrArg LoanId.text (hfiled.numbered l loan hloan), rfl, rfl, ?_⟩
  intro other hother hid
  obtain ⟨loan', hmem, rfl⟩ := List.mem_map.mp hother
  obtain ⟨m, hm⟩ := List.mem_iff_getElem?.mp hmem
  have hsame : m = l := (hfiled.numbered m loan' hm).symm.trans (LoanId.text_inj.mp hid)
  rw [hsame, hloan] at hm
  cases hm
  rfl

end Check

namespace Fixture

/-! ### What a check says of its fixture -/

/-- A loan is carried along where a holder of its reference is live. -/
theorem Inferred.carries {f : Fixture} {config : Config} {c : Check} (h : f.Inferred config c)
    {loan : Loan} {v : Variable} {w : Nat → NodeId} {k : Nat} (hv : c.Outlives loan.region v)
    (hfirst : w 0 = loan.origin) (hheld : f.HeldAlong v loan.place w k) : c.Carries loan w 0 k := by
  refine ⟨hheld.pos, hfirst, ?_, ?_⟩
  · intro j hj hle
    obtain ⟨u, hu, hlive⟩ := hheld.live j hj hle
    exact h.mem_points_of_live (h.outlives_holder hv hu) hlive
  · rintro j hj hlt ⟨-, here, hhere, a, ha, hwrite, hprefix⟩
    have hwrites := h.functionOf.writes_of_access h.facts_eq hhere ha hwrite
    exact hheld.kept j hj hlt a.place hwrites hprefix

/-- Under union, a fixture is reported on once its regions are inferred. -/
theorem exists_report_union {f : Fixture} {file : FileId} {config : Config}
    (h : (f.inferred? file config).isSome) (hunion : config.joinPolicy = .union) :
    ∃ report, f.check file config = .ok report := by
  obtain ⟨c, hc⟩ := Option.isSome_iff_exists.mp h
  have hinferred := inferred_of_inferred? hc
  have hfiled := Function.facts_filed hinferred.facts_eq
  have hpolicy : c.config.joinPolicy = .union := hinferred.config_eq ▸ hunion
  obtain ⟨d, hd⟩ := Check.exists_borrowCheck_union hfiled hpolicy
  exact ⟨d.report, by rw [check_of_inferred? hc, hd]⟩

/-! ### A reference passed on around a loop -/

/-- Node `1` lends `x` to `p`; around a loop, node `2` passes the reference on to `q`. -/
def relay : Fixture where
  name := "relay"
  params := [⟨"x", .builtin .int⟩]
  returnTy := none
  start := 0
  nodes :=
    [⟨0, .start, [1], [], [], none⟩,
      ⟨1, .instructions [.decl "p" (.pointer (.builtin .int)) (some (.addrOf (.var "x"))),
        .decl "q" (.pointer (.builtin .int)) none], [2], [], [], none⟩,
      ⟨2, .instructions [.expr (.assign (.var "q") (.var "p"))], [3], ["p"], [], none⟩,
      ⟨3, .jump, [2, 4], ["q"], [], none⟩,
      ⟨4, .finish, [], ["q"], [], none⟩]

theorem sortedNodes_relay : relay.sortedNodes = relay.nodes :=
  List.mergeSort_of_pairwise (by decide)

theorem edges_relay : relay.edges = [(0, 1), (1, 2), (2, 3), (3, 2), (3, 4)] := by
  rw [edges, sortedNodes_relay]
  rfl

theorem declaredBefore_relay : relay.declaredBefore 1 0 = ["x"] ∧
    relay.declaredBefore 2 0 = ["x", "p", "q"] := by
  rw [declaredBefore, declaredBefore, declaredAt, declaredAt, sortedNodes_relay]
  exact ⟨rfl, rfl⟩

theorem inferred?_relay : (relay.inferred? 0 ⟨.union, true, true⟩).isSome := by
  simp only [inferred?, toFunction, plan, edges, names, sortedNodes_relay]
  decide +kernel

theorem holder_relay : relay.Holder ⟨1, "p"⟩ ⟨2, "q"⟩ := by
  refine .passed (n := 2) (i := 0) (x := "p") .self rfl (.expr .assign (.var ?_)) ?_
  · rw [declaredBefore_relay.2]
    exact resolve?_of.mp (by decide)
  · rw [declaredBefore_relay.2]
    exact resolve?_of.mp (by decide)

theorem Expr.not_writes_var {names : List String} {x : String} {p : Place} :
    ¬ (Expr.var x).Writes names p := by
  intro h
  cases h with
  | here hform _ => cases hform
  | inside hchild _ => simp [children] at hchild

/-- Only `q` is overwritten on the loop. -/
theorem writes_relay {n : NodeId} (hn : n = 2 ∨ n = 3) {p : Place} (h : relay.Writes n p) :
    p.root.name = "q" := by
  obtain ⟨node, hnode, hwrites⟩ := h
  rcases hn with rfl | rfl
  · cases hnode
    rcases hwrites with ⟨i, stmt, hstmt, hw⟩ | ⟨e, he, -⟩
    · cases i with
      | succ i => simp [Body.stmts] at hstmt
      | zero =>
          cases hstmt
          cases hw with
          | expr hw =>
              cases hw with
              | here hform hleft =>
                  cases hform
                  cases hleft with
                  | var hv => exact hv.name_eq
              | inside hchild hw =>
                  simp only [Expr.children, List.mem_cons, List.not_mem_nil, or_false] at hchild
                  rcases hchild with rfl | rfl
                  · exact absurd hw Expr.not_writes_var
                  · exact absurd hw Expr.not_writes_var
    · cases he
  · cases hnode
    rcases hwrites with ⟨i, stmt, hstmt, -⟩ | ⟨e, he, -⟩
    · simp [Body.stmts] at hstmt
    · cases he

/-- Twice around the loop and out. -/
theorem heldAlong_relay :
    relay.HeldAlong ⟨1, "p"⟩ (.var ⟨0, "x"⟩) (fun j => [1, 2, 3, 2, 3, 4].getD j 0) 5 := by
  refine ⟨by decide, ?_, ?_, ?_⟩
  · unfold IsWalk
    rw [edges_relay]
    decide
  · intro j hpos hle
    obtain rfl | rfl | rfl | rfl | rfl : j = 1 ∨ j = 2 ∨ j = 3 ∨ j = 4 ∨ j = 5 := by omega
    · exact ⟨_, .self, by decide⟩
    · exact ⟨_, holder_relay, by decide⟩
    · exact ⟨_, .self, by decide⟩
    · exact ⟨_, holder_relay, by decide⟩
    · exact ⟨_, holder_relay, by decide⟩
  · intro j hpos hlt p hp hprefix
    have hroot : p.root.name = "q" := by
      refine writes_relay ?_ hp
      obtain rfl | rfl | rfl | rfl : j = 1 ∨ j = 2 ∨ j = 3 ∨ j = 4 := by omega
      all_goals decide
    have hp : p = .var ⟨0, "x"⟩ := by simpa [Place.isPrefixOf, Place.prefixes] using hprefix
    rw [hp] at hroot
    exact absurd hroot (by decide)

/-! ### From the fixture to the report -/

/-- Under union, if a node that the start reaches assigns an address to a variable, then the report
has an entry for the loan, and along every walk from the node on which some holder of the reference
is always live and nothing that the lent place is reached from is overwritten, the loan is in scope
on entry to the last node. -/
theorem inScopeAt_of_heldAlong (f : Fixture) (file : FileId) (config : Config) (report : Report)
    (hcheck : f.check file config = .ok report) (hunion : config.joinPolicy = .union) (o : NodeId)
    (hreach : f.Reaches o) (i : Nat) (stmt : Stmt) (hstmt : (f.stmtsAt o)[i]? = some stmt)
    (v : Variable) (value path : Expr)
    (hassign : stmt.Assigns (f.declaredBefore o i) (.var v) value)
    (haddr : path.IsAddressOf value) :
    ∃ place, path.Denotes (f.declaredBefore o i) place ∧
      (∃ entry ∈ report.loans, entry.id = LoanId.text (f.nextLoan o i) ∧ entry.origin = o ∧
        entry.place = place.text ∧
        ∀ other ∈ report.loans, other.id = LoanId.text (f.nextLoan o i) → other = entry) ∧
      ∀ w k, w 0 = o → f.HeldAlong v place w k →
        LoanId.text (f.nextLoan o i) ∈ report.inScopeAt (w k) := by
  obtain ⟨c, d, hc, hd, rfl⟩ := inferred?_of_check hcheck
  have h := inferred_of_inferred? hc
  obtain ⟨hfacts, hsize⟩ := Check.facts_of_borrowCheck hd
  have hfiled := Function.facts_filed h.facts_eq
  obtain ⟨loan, hloan, rfl, hpath, hv⟩ := h.exists_loan hstmt hassign haddr
  refine ⟨loan.place, hpath, ?_, ?_⟩
  · rw [← hfacts] at hfiled hloan
    exact Check.exists_unique_loan_report hfiled hloan
  · intro w k hfirst hheld
    have hlength : d.facts.nodes.length = d.inScope.length := by
      rw [hfacts, hsize, h.length_nodes]
    rw [Check.inScopeAt_report hlength]
    refine List.mem_map_of_mem (IdSet.mem_toList.mpr ?_)
    refine (Check.mem_scopeAt_union hfiled (h.config_eq ▸ hunion) hd).mpr ?_
    refine ⟨loan, hloan, ?_, w, k, ?_, rfl, h.carries hv hfirst hheld⟩
    · rw [h.functionOf.start]
      exact Relation.ReflTransGen.mono
        (fun _ _ hedge => (h.functionOf.edges _).mpr hedge) _ _ hreach
    · intro j hj
      exact (h.functionOf.edges _).mpr (hheld.walk j hj)

/-- The loan of `x` is in scope behind the loop, where only `q` is live. -/
theorem inScopeAt_of_heldAlong_relay :
    ∃ report, relay.check 0 ⟨.union, true, true⟩ = .ok report ∧ relay.Reaches 1 ∧
      LoanId.text 0 ∈ report.inScopeAt 4 := by
  obtain ⟨report, hcheck⟩ := exists_report_union inferred?_relay rfl
  have hreach : relay.Reaches 1 := .single (by rw [edges_relay]; decide)
  have hassign : (Stmt.decl "p" (.pointer (.builtin .int)) (some (.addrOf (.var "x")))).Assigns
      (relay.declaredBefore 1 0) (.var ⟨1, "p"⟩) (.addrOf (.var "x")) := by
    rw [declaredBefore_relay.1]
    exact .decl
  obtain ⟨place, hplace, -, hscope⟩ :=
    inScopeAt_of_heldAlong relay 0 _ report hcheck rfl 1 hreach 0 _
    rfl _ _ _ hassign .addrOf
  have hx : place = .var ⟨0, "x"⟩ := by
    rw [declaredBefore_relay.1] at hplace
    cases hplace with
    | var hv =>
        have hmeans : Means ["x"] "x" ⟨0, "x"⟩ := resolve?_of.mp (by decide)
        rw [hv.unique hmeans]
  have hnumber : relay.nextLoan 1 0 = 0 := by
    rw [nextLoan, lentBefore, sortedNodes_relay]
    rfl
  have hlast := hscope _ 5 rfl (hx ▸ heldAlong_relay)
  rw [hnumber] at hlast
  exact ⟨report, hcheck, hreach, hlast⟩

end Fixture

end LoanScope
