import LoanScope.Fault

/-! Reference types of declared types. Qualifiers gather on the level below the nearest pointer; a
reference is shared exactly if what it points to is `const`. -/

namespace LoanScope.CType

/-- The type, under the qualifiers written around it. Its levels have no regions yet. -/
def toTyUnder (quals : Qualifiers) : CType → Except Cause Ty
  | builtin kind =>
      if quals.isRestrict then .error (.type .restrictOnNonPointer)
      else .ok (.builtin kind quals.isConst)
  | pointer pointee => do
      let p ← pointee.toTyUnder .none
      if p.isConst ∧ quals.isRestrict then .error (.type .constRestrictPointer)
      else
        .ok (.ref (if p.isConst then .shared else .mutable) p none quals.isConst quals.isRestrict)
  | qualified qualifiers inner => inner.toTyUnder (quals.merge qualifiers)
  | typedef _ underlying => underlying.toTyUnder quals
  | elaborated keyword name => .error (.unsupported (.elaboratedType keyword name))

def toTy (t : CType) : Except Cause Ty := t.toTyUnder .none

end LoanScope.CType
