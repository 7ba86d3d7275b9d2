import LoanScope.Proofs.Ty.Levels

/-! The texts of types. A declared type and the reference type that it stands for have the same
text, and the text tells everything about the reference type but its regions: what stands behind the
last star belongs to the outermost reference, and what stands before it is the text of the type
below. -/

namespace LoanScope

namespace Ty

/-- The type without its regions. -/
def erase : Ty → Ty
  | builtin kind isConst => builtin kind isConst
  | ref kind pointee _ isConst isRestrict => ref kind pointee.erase none isConst isRestrict

@[simp] theorem text_erase (t : Ty) : t.erase.text = t.text := by
  induction t with
  | builtin kind isConst => rfl
  | ref kind pointee region isConst isRestrict ih => rw [erase, text, ih, text]

@[simp] theorem erase_number (next : RegionId) (t : Ty) : (t.number next).erase = t.erase := by
  induction t with
  | builtin kind isConst => rfl
  | ref kind pointee region isConst isRestrict ih => rw [number, erase, ih, erase]

@[simp] theorem isConst_erase (t : Ty) : t.erase.isConst = t.isConst := by
  cases t <;> rfl

theorem text_number (next : RegionId) (t : Ty) : (t.number next).text = t.text := by
  rw [← text_erase, erase_number, text_erase]

/-- A reference is shared exactly if what it points to is `const`, at every level. -/
def Regular : Ty → Prop
  | builtin _ _ => True
  | ref kind pointee _ _ _ => (kind = .shared ↔ pointee.isConst) ∧ pointee.Regular

end Ty

theorem Levels.Fits.regular {l : Levels} {ty : Ty} (h : l.Fits ty) : ty.Regular := by
  induction h with
  | bottom quals kind => trivial
  | pointer quals region hbelow hkind ih => exact ⟨hbelow.isConst_eq ▸ hkind, ih⟩

/-! ### Reading a text from its end -/

theorem BorrowKind.eq_of_shared_iff {k k' : BorrowKind} (h : k = .shared ↔ k' = .shared) :
    k = k' := by
  cases k <;> cases k' <;> simp_all

namespace Builtin

theorem spelling_injective {k k' : Builtin} (h : k.spelling = k'.spelling) : k = k' := by
  cases k <;> cases k' <;> simp [spelling] at h ⊢

theorem spelling_ne_const (k k' : Builtin) : "const " ++ k.spelling ≠ k'.spelling := by
  intro h
  have hstart : "const ".toList <+: k'.spelling.toList := ⟨k.spelling.toList, by simp [← h]⟩
  cases k' <;> exact absurd hstart (by decide)

theorem star_not_mem_spelling (k : Builtin) : '*' ∉ k.spelling.toList := by
  cases k <;> decide

end Builtin

namespace Ty

/-- What is written behind a star. -/
def marks (isConst isRestrict : Bool) : List Char :=
  (if isConst then " const" else "").toList ++ (if isRestrict then " restrict" else "").toList

theorem star_not_mem_marks (isConst isRestrict : Bool) : '*' ∉ marks isConst isRestrict := by
  cases isConst <;> cases isRestrict <;> decide

theorem marks_injective {c r c' r' : Bool} (h : marks c r = marks c' r') : c = c' ∧ r = r' := by
  revert c r c' r'
  decide

theorem toList_text_ref (kind : BorrowKind) (pointee : Ty) (region : Option RegionId)
    (isConst isRestrict : Bool) :
    (ref kind pointee region isConst isRestrict).text.toList =
      (pointee.text.toList ++ [' ']) ++ '*' :: marks isConst isRestrict := by
  simp [text, marks]

theorem star_not_mem_text_builtin (kind : Builtin) (isConst : Bool) :
    '*' ∉ (builtin kind isConst).text.toList := by
  have hspelling := kind.star_not_mem_spelling
  cases isConst <;> simpa [text] using hspelling

theorem star_mem_text_ref (kind : BorrowKind) (pointee : Ty) (region : Option RegionId)
    (isConst isRestrict : Bool) :
    '*' ∈ (ref kind pointee region isConst isRestrict).text.toList := by
  simp [toList_text_ref]

/-- `const` in front is no part of a spelling. -/
theorem builtin_eq_of_text_eq {k k' : Builtin} {c c' : Bool}
    (h : (builtin k c).text = (builtin k' c').text) : builtin k c = builtin k' c' := by
  cases c with
  | false =>
      cases c' with
      | false =>
          have hkind : k = k' := Builtin.spelling_injective (by simpa [text] using h)
          rw [hkind]
      | true => exact absurd (by simpa [text] using h.symm) (k'.spelling_ne_const k)
  | true =>
      cases c' with
      | false => exact absurd (by simpa [text] using h) (k.spelling_ne_const k')
      | true =>
          have hkind : k = k' := Builtin.spelling_injective (by simpa [text] using h)
          rw [hkind]

/-- Regular types of one text differ at most in their regions. -/
theorem erase_eq_of_text_eq {t u : Ty} (ht : t.Regular) (hu : u.Regular) (h : t.text = u.text) :
    t.erase = u.erase := by
  induction t generalizing u with
  | builtin k c =>
      cases u with
      | builtin k' c' => exact builtin_eq_of_text_eq h
      | ref k' p' g' c' r' =>
          exact absurd (h ▸ star_mem_text_ref k' p' g' c' r') (star_not_mem_text_builtin k c)
  | ref k p g c r ih =>
      cases u with
      | builtin k' c' =>
          exact absurd (h ▸ star_mem_text_ref k p g c r) (star_not_mem_text_builtin k' c')
      | ref k' p' g' c' r' =>
          -- The marks hold no star, so both texts are split at their last one.
          have hchars := congrArg String.toList h
          rw [toList_text_ref, toList_text_ref] at hchars
          obtain ⟨hbelow, hmarks⟩ :=
            eq_of_append_cons_eq hchars (star_not_mem_marks c r) (star_not_mem_marks c' r')
          obtain ⟨rfl, rfl⟩ := marks_injective hmarks
          have htext : p.text = p'.text := String.toList_inj.mp (List.append_cancel_right hbelow)
          have herase : p.erase = p'.erase := ih ht.2 hu.2 htext
          have hconst : p.isConst = p'.isConst := by rw [← isConst_erase, herase, isConst_erase]
          have hkind : k = k' := BorrowKind.eq_of_shared_iff (by rw [ht.1, hu.1, hconst])
          rw [erase, erase, herase, hkind]

end Ty

/-! ### Declared types and their texts -/

namespace CType

/-- The reference types that a declared type is given: without regions, or with numbered ones. -/
inductive StandsFor (t : CType) : Ty → Prop where
  | bare {ty : Ty} (h : t.toTy = .ok ty) : StandsFor t ty
  | numbered {ty : Ty} (h : t.toTy = .ok ty) (next : RegionId) : StandsFor t (ty.number next)

/-- Both texts gather qualifiers in the same way. -/
theorem text_of_toTyUnder {quals : Qualifiers} {t : CType} {ty : Ty}
    (h : t.toTyUnder quals = .ok ty) :
    ty.text = t.describeUnder quals := by
  induction t generalizing quals ty with
  | builtin kind =>
      rw [toTyUnder] at h
      split at h
      · cases h
      · cases h
        rfl
  | pointer pointee ih =>
      obtain ⟨p, hp, hend⟩ := bind_eq_ok.mp h
      split at hend
      · cases hend
      · cases hend
        rw [Ty.text, ih hp, describeUnder]
  | qualified qualifiers inner ih => exact ih h
  | typedef name underlying ih => exact ih h
  | elaborated keyword name => cases h

theorem StandsFor.text_eq {t : CType} {ty : Ty} (h : t.StandsFor ty) : ty.text = t.describe := by
  cases h with
  | bare h => exact text_of_toTyUnder h
  | numbered h next => rw [Ty.text_number, text_of_toTyUnder h, describe]

theorem StandsFor.fits {t : CType} {ty : Ty} (h : t.StandsFor ty) : t.levels.Fits ty := by
  cases h with
  | bare h => exact fits_of_toTy h
  | numbered h next => exact (fits_of_toTy h).number next

/-- The reference type that a declared type stands for has its text. Two declared types have one
text exactly if they stand for the same reference type, regions aside. -/
theorem describe_eq_iff (t₁ t₂ : CType) (ty₁ ty₂ : Ty) (h₁ : t₁.StandsFor ty₁)
    (h₂ : t₂.StandsFor ty₂) :
    ty₁.text = t₁.describe ∧ (t₁.describe = t₂.describe ↔ ty₁.erase = ty₂.erase) := by
  refine ⟨h₁.text_eq, ?_⟩
  rw [← h₁.text_eq, ← h₂.text_eq]
  constructor
  · exact Ty.erase_eq_of_text_eq h₁.fits.regular h₂.fits.regular
  · intro herase
    rw [← ty₁.text_erase, herase, ty₂.text_erase]

/-- A pointer to a `restrict` pointer, with its qualifiers written in two places. -/
def wrapped : CType :=
  .pointer (.qualified ⟨false, true, false⟩
    (.qualified ⟨false, false, true⟩ (.pointer (.builtin .unsignedLong))))

/-- The same with its qualifiers in one place. -/
def merged : CType := .pointer (.qualified ⟨false, true, true⟩ (.pointer (.builtin .unsignedLong)))

theorem describe_eq_iff_wrapped :
    ∃ ty, wrapped.StandsFor ty ∧ merged.StandsFor (ty.number 5) ∧ ty.text = wrapped.describe ∧
      wrapped.describe = merged.describe := by
  have hwrapped : wrapped.StandsFor _ := .bare rfl
  have hmerged : merged.StandsFor _ := .numbered rfl 5
  obtain ⟨htext, hsame⟩ := describe_eq_iff wrapped merged _ _ hwrapped hmerged
  exact ⟨_, hwrapped, hmerged, htext, hsame.mpr (Ty.erase_number 5 _).symm⟩

end CType

end LoanScope
