import LoanScope.Proofs.Facts.Constraints
import LoanScope.Proofs.Function.Binding
import LoanScope.Report

/-! The check of a fixture up to its regions: names are bound, facts recorded, and the regions
satisfy the constraints that the facts put on them. -/

namespace LoanScope.Fixture

/-- The check of a fixture before its search for loans in scope. -/
def inferred? (f : Fixture) (file : FileId) (config : Config) : Option Check :=
  match f.toFunction file with
  | .error _ => none
  | .ok function =>
      match Check.start function config >>= Check.buildConstraints with
      | .error _ => none
      | .ok c => some c.infer

variable {f : Fixture} {file : FileId} {config : Config} {c : Check}

theorem inferred?_eq_some :
    f.inferred? file config = some c ↔
      ∃ function built, f.toFunction file = .ok function ∧
        Check.start function config >>= Check.buildConstraints = .ok built ∧ built.infer = c := by
  rw [inferred?]
  cases f.toFunction file with
  | error e => simp
  | ok function =>
      cases hbuilt : Check.start function config >>= Check.buildConstraints <;> simp [hbuilt]

/-- What is found of the inferred check is found of a check that was started and got its
constraints. -/
theorem exists_start_of_any {P : Check → Bool} (h : (f.inferred? file config).any P = true) :
    ∃ function c cs, f.toFunction file = .ok function ∧ Check.start function config = .ok c ∧
      c.buildConstraints = .ok { c with constraints := cs } ∧
      P (Check.infer { c with constraints := cs }) = true := by
  obtain ⟨d, hd, hp⟩ := (Option.any_eq_true _ _).mp h
  obtain ⟨function, built, hfun, hbuilt, rfl⟩ := inferred?_eq_some.mp hd
  obtain ⟨c, hstart, hbuild⟩ := bind_eq_ok.mp hbuilt
  obtain ⟨cs, -, hend⟩ := bind_eq_ok.mp hbuild
  cases hend
  exact ⟨function, c, cs, hfun, hstart, hbuild, hp⟩

theorem check_of_inferred? (h : f.inferred? file config = some c) :
    f.check file config =
      match c.borrowCheck with
      | none => .error (.check .unsettled)
      | some d => .ok d.report := by
  obtain ⟨function, built, hfun, hbuilt, rfl⟩ := inferred?_eq_some.mp h
  simp only [check, hfun, Function.check, hbuilt]
  cases built.infer.borrowCheck <;> rfl

/-- A report tells of a search that ended. -/
theorem inferred?_of_check {report : Report} (h : f.check file config = .ok report) :
    ∃ c d, f.inferred? file config = some c ∧ c.borrowCheck = some d ∧ d.report = report := by
  cases hfun : f.toFunction file with
  | error e => simp [check, hfun] at h
  | ok function =>
      cases hbuilt : Check.start function config >>= Check.buildConstraints with
      | error e => simp [check, hfun, Function.check, hbuilt] at h
      | ok built =>
          have hc := inferred?_eq_some.mpr ⟨function, built, hfun, hbuilt, rfl⟩
          rw [check_of_inferred? hc] at h
          cases hd : built.infer.borrowCheck with
          | none => simp [hd] at h
          | some d =>
              simp only [hd, Except.ok.injEq] at h
              exact ⟨built.infer, d, hc, hd, h⟩

/-- The check has the function of the fixture, its facts, and regions that satisfy their
constraints. -/
structure Inferred (f : Fixture) (config : Config) (c : Check) : Prop where
  functionOf : f.FunctionOf c.function
  config_eq : c.config = config
  facts_eq : c.function.facts = .ok c.facts
  constraints_eq : c.facts.constraints c.config c.function = .ok c.constraints
  size_eq : c.regions.size = c.facts.regions.size
  holdsIn : ∀ k ∈ c.constraints, k.HoldsIn c.regions

theorem inferred_of_inferred? (h : f.inferred? file config = some c) : f.Inferred config c := by
  obtain ⟨function, built, hfun, hbuilt, rfl⟩ := inferred?_eq_some.mp h
  obtain ⟨started, hstart, hbuild⟩ := bind_eq_ok.mp hbuilt
  obtain ⟨facts, hfacts, hend⟩ := bind_eq_ok.mp hstart
  obtain ⟨cs, hcs, hlast⟩ := bind_eq_ok.mp hbuild
  cases hend
  cases hlast
  obtain ⟨hsize, hholds⟩ := Regions.solve_holdsIn cs facts.regions
  exact ⟨toFunction_functionOf hfun, rfl, hfacts, hcs, hsize, hholds⟩

end LoanScope.Fixture
