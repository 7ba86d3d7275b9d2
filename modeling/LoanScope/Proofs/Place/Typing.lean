import LoanScope.Proofs.Facts.Constraints
import LoanScope.Proofs.Facts.Typing
import Mathlib.Logic.Function.Iterate

/-! Which places have a type. Each dereference takes one level of reference off the declared type of
the variable, and a member anywhere leaves the place without a type. Of the things that may be wrong
a member is told first, then a variable that is not declared, and then a dereference too many. -/

namespace LoanScope

/-! ### Levels of reference -/

namespace Ty

variable {t s : Ty} {k : Nat}

theorem below?_zero (t : Ty) : t.below? 0 = some t := by
  cases t <;> rfl

theorem below?_succ :
    t.below? (k + 1) = some s ↔
      ∃ kind region isConst isRestrict,
        t.below? k = some (.ref kind s region isConst isRestrict) := by
  induction t generalizing k with
  | builtin kind isConst => cases k <;> simp [below?]
  | ref kind pointee region isConst isRestrict ih =>
      cases k with
      | zero => simp [below?]
      | succ k => exact ih

/-- The levels that are taken off and those that are left make up the type. -/
theorem depth_of_below? (h : t.below? k = some s) : t.depth = k + s.depth := by
  induction k generalizing s with
  | zero =>
      rw [below?_zero] at h
      cases h
      rw [Nat.zero_add]
  | succ k ih =>
      obtain ⟨kind, region, isConst, isRestrict, habove⟩ := below?_succ.mp h
      rw [ih habove, depth]
      omega

theorem exists_below? (h : k ≤ t.depth) : ∃ s, t.below? k = some s := by
  induction k with
  | zero => exact ⟨t, t.below?_zero⟩
  | succ k ih =>
      obtain ⟨s, hs⟩ := ih (Nat.le_of_succ_le h)
      have hdepth := depth_of_below? hs
      cases s with
      | builtin kind isConst =>
          rw [depth] at hdepth
          omega
      | ref kind pointee region isConst isRestrict =>
          exact ⟨pointee, below?_succ.mpr ⟨kind, region, isConst, isRestrict, hs⟩⟩

/-- Below all levels there is a builtin. -/
theorem exists_below?_depth (t : Ty) :
    ∃ kind isConst, t.below? t.depth = some (.builtin kind isConst) := by
  obtain ⟨s, hs⟩ := exists_below? (t := t) (Nat.le_refl _)
  cases s with
  | builtin kind isConst => exact ⟨kind, isConst, hs⟩
  | ref kind pointee region isConst isRestrict =>
      have hdepth := depth_of_below? hs
      rw [depth] at hdepth
      omega

end Ty

namespace Place

variable {d : Declared} {p : Place} {t : Ty} {e : Cause}

/-! ### Members of a place -/

/-- The fields of all members on the way to the variable, the outermost first. -/
def fields : Place → List String
  | var _ => []
  | deref p => p.fields
  | member p field => field :: p.fields

/-- Without members, a place is so many dereferences of its variable. -/
theorem exists_eq_iterate (h : p.fields = []) : ∃ k, p = deref^[k] (var p.root) := by
  induction p with
  | var v => exact ⟨0, rfl⟩
  | deref p ih =>
      obtain ⟨k, hk⟩ := ih h
      refine ⟨k + 1, ?_⟩
      rw [Function.iterate_succ_apply', root, ← hk]
  | member p field ih => cases h

/-! ### Places with a type -/

theorem typeIn_iterate {v : Variable} {k : Nat} :
    (deref^[k] (var v)).typeIn d = .ok t ↔ ∃ ty, d.get? v.decl = some ty ∧
      ty.below? k = some t := by
  induction k generalizing t with
  | zero =>
      rw [Function.iterate_zero_apply, typeIn]
      cases d.get? v.decl <;> simp [Ty.below?_zero]
  | succ k ih =>
      rw [Function.iterate_succ_apply', typeIn_deref]
      simp only [ih, Ty.below?_succ]
      constructor
      · rintro ⟨kind, region, isConst, isRestrict, ty, hty, hbelow⟩
        exact ⟨ty, hty, kind, region, isConst, isRestrict, hbelow⟩
      · rintro ⟨ty, hty, kind, region, isConst, isRestrict, hbelow⟩
        exact ⟨kind, region, isConst, isRestrict, ty, hty, hbelow⟩

theorem fields_of_typeIn (h : p.typeIn d = .ok t) : p.fields = [] := by
  induction p generalizing t with
  | var v => rfl
  | deref p ih =>
      obtain ⟨kind, region, isConst, isRestrict, hp⟩ := typeIn_deref.mp h
      exact ih hp
  | member p field ih => cases h

theorem typeIn_eq_ok :
    p.typeIn d = .ok t ↔
      ∃ k v ty, p = deref^[k] (var v) ∧ d.get? v.decl = some ty ∧ k ≤ ty.depth ∧
        ty.below? k = some t := by
  constructor
  · intro h
    obtain ⟨k, hk⟩ := exists_eq_iterate (fields_of_typeIn h)
    rw [hk] at h
    obtain ⟨ty, hty, hbelow⟩ := typeIn_iterate.mp h
    have hle : k ≤ ty.depth := by
      rw [Ty.depth_of_below? hbelow]
      exact Nat.le_add_right _ _
    exact ⟨k, p.root, ty, hk, hty, hle, hbelow⟩
  · rintro ⟨k, v, ty, rfl, hty, -, hbelow⟩
    exact typeIn_iterate.mpr ⟨ty, hty, hbelow⟩

/-! ### Places without a type -/

/-- Why a place has no type. A rule speaks only where those before it do not. -/
inductive Untyped (d : Declared) (p : Place) : Cause → Prop where
  | member {field : String} (hfirst : p.fields.head? = some field) :
      Untyped d p (.unsupported (.memberType field))
  | undeclared (hnone : p.fields = []) (hroot : d.get? p.root.decl = none) :
      Untyped d p (.type (.unknownDeclaration p.root.name))
  | builtin {k : Nat} {ty : Ty} {kind : Builtin} {isConst : Bool} (hp : p = deref^[k] (var p.root))
      (hroot : d.get? p.root.decl = some ty) (hdeep : ty.depth < k)
      (hbottom : ty.below? ty.depth = some (.builtin kind isConst)) :
      Untyped d p (.type (.derefOfNonReference (.builtin kind isConst)))

/-- What is wrong with a place is wrong with its dereferences. -/
theorem typeIn_iterate_of_error (h : p.typeIn d = .error e) (k : Nat) :
    (deref^[k] p).typeIn d = .error e := by
  induction k with
  | zero => exact h
  | succ k ih =>
      rw [Function.iterate_succ_apply', typeIn]
      exact bind_eq_error.mpr (.inl ih)

theorem typeIn_of_member {field : String} (h : p.fields.head? = some field) :
    p.typeIn d = .error (.unsupported (.memberType field)) := by
  induction p with
  | var v => cases h
  | deref p ih => exact typeIn_iterate_of_error (ih h) 1
  | member p field' ih =>
      cases h
      rfl

theorem typeIn_of_undeclared (hnone : p.fields = []) (hroot : d.get? p.root.decl = none) :
    p.typeIn d = .error (.type (.unknownDeclaration p.root.name)) := by
  obtain ⟨k, hk⟩ := exists_eq_iterate hnone
  have hvar : (var p.root).typeIn d = .error (.type (.unknownDeclaration p.root.name)) := by
    rw [typeIn, hroot]
  calc p.typeIn d = (deref^[k] (var p.root)).typeIn d := congrArg (typeIn d) hk
    _ = .error (.type (.unknownDeclaration p.root.name)) := typeIn_iterate_of_error hvar k

/-- Once all levels are taken off, the next dereference meets the builtin, and the others do not
matter. -/
theorem typeIn_of_depth_lt {v : Variable} {k : Nat} {ty : Ty} {kind : Builtin} {isConst : Bool}
    (hroot : d.get? v.decl = some ty) (hdeep : ty.depth < k)
    (hbottom : ty.below? ty.depth = some (.builtin kind isConst)) :
    (deref^[k] (var v)).typeIn d =
      .error (.type (.derefOfNonReference (.builtin kind isConst))) := by
  obtain ⟨more, rfl⟩ := Nat.exists_eq_add_of_lt hdeep
  have hlast : (deref^[ty.depth] (var v)).typeIn d = .ok (.builtin kind isConst) :=
    typeIn_iterate.mpr ⟨ty, hroot, hbottom⟩
  have hnext : (deref^[ty.depth] (var v)).deref.typeIn d =
      .error (.type (.derefOfNonReference (.builtin kind isConst))) := by
    rw [typeIn, hlast]
    rfl
  have hsplit : ty.depth + more + 1 = more + (ty.depth + 1) := by omega
  rw [hsplit, Function.iterate_add_apply, Function.iterate_succ_apply']
  exact typeIn_iterate_of_error hnext more

theorem Untyped.typeIn (h : p.Untyped d e) : p.typeIn d = .error e := by
  cases h with
  | member hfirst => exact typeIn_of_member hfirst
  | undeclared hnone hroot => exact typeIn_of_undeclared hnone hroot
  | builtin hp hroot hdeep hbottom =>
      rw [hp]
      exact typeIn_of_depth_lt hroot hdeep hbottom

/-- The rules leave nothing out. -/
theorem exists_typeIn_or_untyped (d : Declared) (p : Place) :
    (∃ t, p.typeIn d = .ok t) ∨ ∃ e, p.Untyped d e := by
  cases hfields : p.fields with
  | cons field rest => exact .inr ⟨_, .member (by rw [hfields]; rfl)⟩
  | nil =>
      cases hroot : d.get? p.root.decl with
      | none => exact .inr ⟨_, .undeclared hfields hroot⟩
      | some ty =>
          obtain ⟨k, hk⟩ := exists_eq_iterate hfields
          by_cases hle : k ≤ ty.depth
          · obtain ⟨t, ht⟩ := Ty.exists_below? hle
            exact .inl ⟨t, typeIn_eq_ok.mpr ⟨k, p.root, ty, hk, hroot, hle, ht⟩⟩
          · obtain ⟨kind, isConst, hbottom⟩ := ty.exists_below?_depth
            exact .inr ⟨_, .builtin hk hroot (Nat.lt_of_not_ge hle) hbottom⟩

theorem typeIn_eq_error : p.typeIn d = .error e ↔ p.Untyped d e := by
  refine ⟨?_, Untyped.typeIn⟩
  intro h
  rcases exists_typeIn_or_untyped d p with ⟨t, ht⟩ | ⟨e', he'⟩
  · rw [h] at ht
    cases ht
  · have heq : Except.error e = Except.error e' := h.symm.trans he'.typeIn
    cases heq
    exact he'

/-! ### What becomes of a place -/

/-- A place has a type exactly if it is some number of dereferences of a declared variable whose
type has at least so many levels of reference. Its type is then what is left of that type, and
everything that the place is reached through has a type as well. Otherwise the fault has the span
that is given, and its cause is the one that the rules name. -/
theorem typeIn_outcome (d : Declared) (span : FileSpan) (p : Place) :
    (∀ t, Cause.locate span (p.typeIn d) = .ok t ↔
      ∃ k v ty, p = deref^[k] (var v) ∧ d.get? v.decl = some ty ∧ k ≤ ty.depth ∧
        ty.below? k = some t) ∧
    (∀ t, Cause.locate span (p.typeIn d) = .ok t →
      ∀ q ∈ p.prefixes, ∃ s, Cause.locate span (q.typeIn d) = .ok s) ∧
    ∀ fault, Cause.locate span (p.typeIn d) = .error fault ↔ fault.span = span ∧
      p.Untyped d fault.cause := by
  simp only [Cause.locate_eq_ok, Cause.locate_eq_error]
  refine ⟨fun t => typeIn_eq_ok, ?_, fun fault => and_congr_right fun _ => typeIn_eq_error⟩
  intro t ht q hq
  exact exists_typeIn_of_mem_prefixes ht hq

/-- A table in which `s` is an integer first and a pointer to a pointer later. -/
def redeclared : Declared :=
  (Declared.empty.add ⟨0, "s"⟩ (.builtin .int false)).add ⟨0, "s"⟩
    (.ref .mutable (.ref .mutable (.builtin .int false) (some 1) false false) (some 2) false false)

/-- The later type of `s` counts: `**s` is reached through places with a type, and `***s` goes one
level too deep. In `*t->next` the member is told, though `t` is not declared. -/
theorem typeIn_outcome_redeclared :
    (∀ q ∈ (var ⟨0, "s"⟩).deref.deref.prefixes, ∃ ty,
      Cause.locate (.detached 0) (q.typeIn redeclared) = .ok ty) ∧
    Cause.locate (.detached 0) ((var ⟨0, "s"⟩).deref.deref.deref.typeIn redeclared) =
      .error ⟨.type (.derefOfNonReference (.builtin .int false)), .detached 0⟩ ∧
    Cause.locate (.detached 0) (((var ⟨1, "t"⟩).deref.member "next").deref.typeIn redeclared) =
      .error ⟨.unsupported (.memberType "next"), .detached 0⟩ := by
  obtain ⟨hok, hprefixes, -⟩ := typeIn_outcome redeclared (.detached 0) (var ⟨0, "s"⟩).deref.deref
  obtain ⟨-, -, hdeep⟩ := typeIn_outcome redeclared (.detached 0) (var ⟨0, "s"⟩).deref.deref.deref
  obtain ⟨-, -, hmember⟩ :=
    typeIn_outcome redeclared (.detached 0) ((var ⟨1, "t"⟩).deref.member "next").deref
  refine ⟨hprefixes (.builtin .int false) ?_, (hdeep _).mpr ⟨rfl, ?_⟩,
    (hmember _).mpr ⟨rfl, .member rfl⟩⟩
  · exact (hok _).mpr ⟨2, ⟨0, "s"⟩, _, rfl, rfl, by decide, rfl⟩
  · exact .builtin (k := 3) rfl rfl (by decide) rfl

end Place

end LoanScope
