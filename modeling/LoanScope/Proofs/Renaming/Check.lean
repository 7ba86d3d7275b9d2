import LoanScope.Proofs.Renaming.Facts
import LoanScope.Report

/-! Checking under renaming. The report of a fixture with its names changed one to one differs from
that of the fixture only where names are shown, and a fixture that is refused is refused for the
same reason. -/

namespace LoanScope

/-! ### Places -/

section places

variable {ρ : String ↪ String}

theorem Variable.rename_injective : (Variable.rename ρ).Injective := by
  intro v w h
  cases v
  cases w
  simpa [Variable.rename] using h

theorem Place.rename_injective : (Place.rename ρ).Injective := by
  intro p q h
  induction p generalizing q with
  | var v =>
      cases q <;> simp only [rename, var.injEq, reduceCtorEq] at h
      rw [Variable.rename_injective h]
  | deref p ih =>
      cases q <;> simp only [rename, deref.injEq, reduceCtorEq] at h
      rw [ih h]
  | member p field ih =>
      cases q <;> simp only [rename, member.injEq, EmbeddingLike.apply_eq_iff_eq, reduceCtorEq] at h
      rw [ih h.1, h.2]

theorem Place.prefixes_rename (p : Place) : (p.rename ρ).prefixes = p.prefixes.map (rename ρ) := by
  induction p <;> simp_all [rename, prefixes]

theorem Place.isPrefixOf_rename (p q : Place) :
    (p.rename ρ).isPrefixOf (q.rename ρ) = p.isPrefixOf q := by
  simp only [isPrefixOf, prefixes_rename, List.mem_map_of_injective rename_injective]

end places

/-! ### The phases -/

/-- The check of the function with every name changed. -/
def Check.rename (ρ : String ↪ String) (c : Check) : Check :=
  { c with function := c.function.rename ρ, facts := c.facts.rename ρ }

section phases

variable {ρ : String ↪ String}

namespace Check

theorem start_rename (f : Function) (config : Config) :
    start (f.rename ρ) config = mapBoth (Fault.rename ρ) (Check.rename ρ) (start f config) := by
  refine bind_eq_mapBoth f.facts_rename fun facts => ?_
  simp only [Facts.rename, List.map_map]
  rfl

theorem buildConstraints_rename (c : Check) :
    (c.rename ρ).buildConstraints =
      mapBoth (Fault.rename ρ) (Check.rename ρ) c.buildConstraints :=
  bind_eq_mapBoth (Facts.constraints_rename { c.facts with regions := c.regions }
    c.config c.function)
    fun _ => rfl

theorem kills_rename (c : Check) (n : NodeId) : (c.rename ρ).kills n = c.kills n := by
  have haccesses : (((c.rename ρ).facts.nodes[n]?.map NodeFacts.accesses).getD []) =
      ((c.facts.nodes[n]?.map NodeFacts.accesses).getD []).map (Access.rename ρ) := by
    simp only [rename, Facts.rename, List.getElem?_map]
    cases c.facts.nodes[n]? <;> rfl
  have hwrites : ∀ accesses : List Access,
    (accesses.map (Access.rename ρ)).filter Access.isShallowWrite =
      (accesses.filter Access.isShallowWrite).map (Access.rename ρ) := fun _ => List.filter_map
  rw [kills, kills, haccesses, hwrites]
  simp only [rename, Facts.rename, List.filter_map, List.map_map, Function.comp_def, List.any_map,
    Access.rename, Loan.rename, Place.isPrefixOf_rename]

/-- Loans flow as before: names decide only which places lie within which. -/
theorem flow_rename (c : Check) : (c.rename ρ).flow = c.flow := by
  have hholds : (c.rename ρ).holds = c.holds := by
    funext l n
    simp only [holds, rename, Facts.rename, List.getElem?_map]
    cases c.facts.loans[l]? <;> rfl
  have hmakes : (c.rename ρ).makes = c.makes := by
    funext n
    simp only [makes, rename, Facts.rename, List.getElem?_map]
    cases c.facts.nodes[n]? <;> rfl
  rw [flow, flow, hholds, hmakes, funext c.kills_rename]
  simp [rename, Facts.rename, Function.rename]

theorem borrowCheck_rename (c : Check) :
    (c.rename ρ).borrowCheck = c.borrowCheck.map (Check.rename ρ) := by
  rw [borrowCheck, borrowCheck, flow_rename]
  cases c.flow.settle <;> rfl

end Check

/-! ### Functions -/

def CheckError.rename (ρ : String → String) : CheckError → CheckError
  | fault f => fault (f.rename ρ)
  | unsettled => unsettled

theorem Function.check_rename (f : Function) (config : Config) :
    (f.rename ρ).check config = mapBoth (CheckError.rename ρ) (Check.rename ρ)
      (f.check config) := by
  have hbuilt : (Check.start (f.rename ρ) config >>= Check.buildConstraints) =
      mapBoth (Fault.rename ρ) (Check.rename ρ) (Check.start f config >>= Check.buildConstraints) :=
    bind_eq_mapBoth (Check.start_rename f config) Check.buildConstraints_rename
  rw [check, check, hbuilt]
  cases Check.start f config >>= Check.buildConstraints with
  | error e => rfl
  | ok c =>
      have hinfer : (c.rename ρ).infer = c.infer.rename ρ := rfl
      simp only [mapBoth_ok, hinfer, Check.borrowCheck_rename]
      cases c.infer.borrowCheck <;> rfl

end phases

/-! ### Reports -/

/-- The report of a check, with the places in it shown under changed names. -/
def Check.reportUnder (ρ : String → String) (c : Check) : Report :=
  { c.report with
    function := ρ c.function.name
    loans := c.facts.loans.map fun l =>
      ⟨LoanId.text l.id, (l.place.rename ρ).text, l.kind.text, l.origin, RegionId.text l.region⟩
    nodes := (c.facts.nodes.zip c.inScope).zipIdx.map fun ((node, inScope), n) =>
      ⟨n, inScope.toList.map LoanId.text, node.copies.map fun t => (t.rename ρ).text,
        node.moves.map fun t => (t.rename ρ).text⟩ }

/-- The report without all that names are shown in: the function, the places lent, copies and
moves. -/
def Report.withoutNames (r : Report) : Report :=
  { r with
    function := ""
    loans := r.loans.map ({ · with place := "" })
    nodes := r.nodes.map ({ · with copies := [], moves := [] }) }

/-- The error with every name in it changed. -/
def Error.rename (ρ : String → String) : Error → Error
  | json => json
  | fixture e => fixture (e.rename ρ)
  | check e => check (e.rename ρ)

/-- An error but for the names in it. -/
def Error.kind (e : Error) : Error := e.rename fun _ => ""

theorem Error.kind_rename (ρ : String → String) (e : Error) : (e.rename ρ).kind = e.kind := by
  cases e with
  | json => rfl
  | fixture e => cases e <;> rfl
  | check e =>
      cases e with
      | unsettled => rfl
      | fault f =>
          cases f with
          | mk cause span =>
              cases cause with
              | unsupported u => cases u <;> rfl
              | type e => cases e <;> rfl
              | borrowWithoutDestination => rfl

theorem Error.span?_rename (ρ : String → String) (e : Error) : (e.rename ρ).span? = e.span? := by
  cases e with
  | check e => cases e <;> rfl
  | _ => rfl

namespace Check

theorem report_rename (ρ : String ↪ String) (c : Check) :
    (c.rename ρ).report = c.reportUnder ρ := by
  have hloans : (c.rename ρ).report.loans = (c.reportUnder ρ).loans := List.map_map
  have hnodes : (c.rename ρ).report.nodes = (c.reportUnder ρ).nodes := by
    simp only [report, reportUnder, rename, Facts.rename, List.zip_map_left,
      List.zipIdx_map, List.map_map]
    refine List.map_congr_left fun x _ => ?_
    simp [NodeFacts.rename]
  calc (c.rename ρ).report
    _ = { c.report with
          function := ρ c.function.name
          loans := (c.rename ρ).report.loans
          nodes := (c.rename ρ).report.nodes } := rfl
    _ = c.reportUnder ρ := by rw [hloans, hnodes]; rfl

theorem withoutNames_reportUnder (ρ : String → String) (c : Check) :
    (c.reportUnder ρ).withoutNames = c.report.withoutNames := by
  simp [Report.withoutNames, reportUnder, report]

end Check

/-- A fixture with its names changed one to one is checked exactly if the fixture is. The two
reports have the same regions and points, loans, loans in scope, passes and dump; where they show
names, one shows those of the other changed. If one is refused, so is the other, for the same reason
and at the same place. -/
theorem Fixture.check_renamed (f : Fixture) (ρ : String ↪ String) (file : FileId)
    (config : Config) :
    (∃ function c, f.toFunction file = .ok function ∧ function.check config = .ok c ∧
      f.check file config = .ok c.report ∧ (f.rename ρ).check file config = .ok (c.reportUnder ρ) ∧
      (c.reportUnder ρ).withoutNames = c.report.withoutNames) ∨
    ∃ e, f.check file config = .error e ∧ (f.rename ρ).check file config = .error (e.rename ρ) ∧
      (e.rename ρ).kind = e.kind ∧ (e.rename ρ).span? = e.span? := by
  rw [check, check, toFunction_rename]
  cases hbound : f.toFunction file with
  | error e => exact .inr ⟨_, rfl, rfl, Error.kind_rename ρ _, Error.span?_rename ρ _⟩
  | ok function =>
      simp only [mapBoth_ok, Function.check_rename]
      cases hchecked : function.check config with
      | error e => exact .inr ⟨_, rfl, rfl, Error.kind_rename ρ _, Error.span?_rename ρ _⟩
      | ok c =>
          refine .inl ⟨function, c, rfl, hchecked, rfl, ?_, c.withoutNames_reportUnder ρ⟩
          exact congrArg Except.ok (c.report_rename ρ)

end LoanScope
