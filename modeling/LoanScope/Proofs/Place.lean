import LoanScope.Facts
import LoanScope.Proofs.Data.Except

/-! Places that have a type. -/

namespace LoanScope

theorem Cause.locate_eq_ok {α : Type} {span : FileSpan} {x : Except Cause α} {a : α} :
    Cause.locate span x = .ok a ↔ x = .ok a := by
  cases x <;> simp [Cause.locate]

theorem Cause.locate_eq_error {α : Type} {span : FileSpan} {x : Except Cause α} {fault : Fault} :
    Cause.locate span x = .error fault ↔ fault.span = span ∧ x = .error fault.cause := by
  obtain ⟨cause, place⟩ := fault
  cases x <;> simp [Cause.locate, and_comm, eq_comm]

namespace Declared

theorem get?_eq_find? (d : Declared) (decl : DeclId) :
    d.get? decl = (d.entries.reverse.find? (·.1.decl = decl)).map Prod.snd := by
  rw [get?, List.findRev?_eq_find?_reverse]

theorem mem_entries_of_get? {d : Declared} {decl : DeclId} {ty : Ty} (h : d.get? decl = some ty) :
    ∃ e ∈ d.entries, e.1.decl = decl ∧ e.2 = ty := by
  rw [get?_eq_find?] at h
  obtain ⟨e, he, hty⟩ := Option.map_eq_some_iff.mp h
  have hdecl : e.1.decl = decl := by simpa using List.find?_some he
  exact ⟨e, List.mem_reverse.mp (List.mem_of_find?_eq_some he), hdecl, hty⟩

theorem exists_get? {d : Declared} {decl : DeclId} :
    (∃ ty, d.get? decl = some ty) ↔ ∃ e ∈ d.entries, e.1.decl = decl := by
  constructor
  · rintro ⟨ty, hty⟩
    obtain ⟨e, he, hdecl, -⟩ := mem_entries_of_get? hty
    exact ⟨e, he, hdecl⟩
  · rintro ⟨e, he, hdecl⟩
    have hfound : (d.entries.reverse.find? (·.1.decl = decl)).isSome := by
      rw [List.find?_isSome]
      exact ⟨e, List.mem_reverse.mpr he, by simpa using hdecl⟩
    obtain ⟨found, hfound⟩ := Option.isSome_iff_exists.mp hfound
    exact ⟨found.2, by rw [get?_eq_find?, hfound]; rfl⟩

end Declared

/-- The type recorded with a place is its type. -/
def TypedPlace.Typed (d : Declared) (p : TypedPlace) : Prop := p.place.typeIn d = .ok p.ty

theorem Place.typed_eq_ok {d : Declared} {span : FileSpan} {p : Place} {q : TypedPlace} :
    p.typed d span = .ok q ↔ q.place = p ∧ q.Typed d := by
  simp only [Place.typed, bind_eq_ok, Cause.locate_eq_ok, TypedPlace.Typed, Except.ok.injEq]
  constructor
  · rintro ⟨ty, hty, rfl⟩
    exact ⟨rfl, hty⟩
  · rintro ⟨rfl, hty⟩
    exact ⟨q.ty, hty, rfl⟩

theorem Expr.place?_deref {id : ExprId} {span : FileSpan} {e : Expr} {p : Place} :
    (Expr.unary id span .deref e).place? = .ok (some p) ↔
      ∃ q, e.place? = .ok (some q) ∧ q.deref = p := by
  rw [Expr.place?, bind_eq_ok]
  constructor
  · rintro ⟨q, hq, h⟩
    cases q with
    | none => cases h
    | some q =>
        cases h
        exact ⟨q, hq, rfl⟩
  · rintro ⟨q, hq, rfl⟩
    exact ⟨some q, hq, rfl⟩

theorem Expr.place?_member {id : ExprId} {span : FileSpan} {e : Expr} {field : String}
    {arrow : Bool} {p : Place} :
    (Expr.member id span e field arrow).place? = .ok (some p) ↔
      ∃ q, e.place? = .ok (some q) ∧ (if arrow then q.deref else q).member field = p := by
  rw [Expr.place?, bind_eq_ok]
  constructor
  · rintro ⟨q, hq, h⟩
    cases q with
    | none => cases h
    | some q =>
        cases h
        exact ⟨q, hq, rfl⟩
  · rintro ⟨q, hq, rfl⟩
    exact ⟨some q, hq, rfl⟩

end LoanScope
