import LoanScope.Proofs.Facts.Owners

/-! Declared types level by level. A declared type is a chain of pointers that ends in a builtin or
a tagged type, each with the qualifiers written around it. The chain alone decides whether the type
is accepted, which reference type it stands for, and what is wrong with it otherwise. -/

namespace LoanScope

/-- What a chain of pointers ends in. -/
inductive Bottom where
  | builtin (kind : Builtin)
  | tagged (keyword : TagKeyword) (name : String)
deriving DecidableEq, Repr

/-- The levels of a type with their qualifiers, the outermost first. -/
inductive Levels where
  | bottom (quals : Qualifiers) (what : Bottom)
  | pointer (quals : Qualifiers) (below : Levels)
deriving DecidableEq, Repr

namespace Levels

/-- The qualifiers of the outermost level. -/
def quals : Levels → Qualifiers
  | bottom quals _ => quals
  | pointer quals _ => quals

/-- The bottom, below all pointers. -/
def what : Levels → Bottom
  | bottom _ what => what
  | pointer _ below => below.what

def bottomQuals : Levels → Qualifiers
  | bottom quals _ => quals
  | pointer _ below => below.bottomQuals

/-- The number of pointers. -/
def pointers : Levels → Nat
  | bottom _ _ => 0
  | pointer _ below => below.pointers + 1

/-- What is written around a type qualifies its outermost level, beside what is written there
already. -/
def qualify (more : Qualifiers) : Levels → Levels
  | bottom quals what => bottom (more.merge quals) what
  | pointer quals below => pointer (more.merge quals) below

/-- Some `restrict` pointer has a `const` level directly below it. -/
def Clashes : Levels → Prop
  | bottom _ _ => False
  | pointer quals below => quals.isRestrict ∧ below.quals.isConst ∨ below.Clashes

/-- The type has one reference for each pointer, with its qualifiers, and ends in the builtin at the
bottom. A reference is shared exactly if the level below it is `const`. Regions may be any. -/
inductive Fits : Levels → Ty → Prop where
  | bottom (quals : Qualifiers) (kind : Builtin) :
      Fits (.bottom quals (.builtin kind)) (.builtin kind quals.isConst)
  | pointer (quals : Qualifiers) {below : Levels} {pointee : Ty} {kind : BorrowKind}
      (region : Option RegionId) (hbelow : Fits below pointee)
      (hkind : kind = .shared ↔ below.quals.isConst) :
      Fits (.pointer quals below) (.ref kind pointee region quals.isConst quals.isRestrict)

/-- The reference type of a chain, computed from the bottom up. -/
def toTy : Levels → Except Cause Ty
  | bottom _ (.tagged keyword name) => .error (.unsupported (.elaboratedType keyword name))
  | bottom quals (.builtin kind) =>
      if quals.isRestrict then .error (.type .restrictOnNonPointer)
      else .ok (.builtin kind quals.isConst)
  | pointer quals below => do
      let p ← below.toTy
      if p.isConst ∧ quals.isRestrict then .error (.type .constRestrictPointer)
      else
        .ok (.ref (if p.isConst then .shared else .mutable) p none quals.isConst quals.isRestrict)

end Levels

/-- Each pointer and the bottom gather the qualifiers that are written around them, up to the next
pointer above; typedefs are seen through. -/
def CType.levels : CType → Levels
  | builtin kind => .bottom .none (.builtin kind)
  | pointer pointee => .pointer .none pointee.levels
  | qualified qualifiers inner => inner.levels.qualify qualifiers
  | typedef _ underlying => underlying.levels
  | elaborated keyword name => .bottom .none (.tagged keyword name)

/-! ### Types by their chains -/

namespace Qualifiers

theorem merge_none (q : Qualifiers) : q.merge none = q := by
  simp [merge, none]

theorem none_merge (q : Qualifiers) : none.merge q = q := by
  simp [merge, none]

theorem merge_assoc (p q r : Qualifiers) : (p.merge q).merge r = p.merge (q.merge r) := by
  simp [merge, Bool.or_assoc]

end Qualifiers

theorem Levels.qualify_qualify (p q : Qualifiers) (l : Levels) :
    (l.qualify q).qualify p = l.qualify (p.merge q) := by
  cases l <;> simp [qualify, Qualifiers.merge_assoc]

theorem Levels.qualify_none (l : Levels) : l.qualify .none = l := by
  cases l <;> simp [qualify, Qualifiers.none_merge]

/-- Qualifiers handed down to the nearest level are those that level gathers from above. -/
theorem CType.toTyUnder_eq (quals : Qualifiers) (t : CType) :
    t.toTyUnder quals = (t.levels.qualify quals).toTy := by
  induction t generalizing quals with
  | builtin kind => simp [toTyUnder, levels, Levels.qualify, Levels.toTy, Qualifiers.merge_none]
  | pointer pointee ih =>
      rw [toTyUnder, ih, Levels.qualify_none, levels, Levels.qualify,
        Qualifiers.merge_none, Levels.toTy]
  | qualified qualifiers inner ih => rw [toTyUnder, ih, levels, Levels.qualify_qualify]
  | typedef name underlying ih => rw [toTyUnder, ih, levels]
  | elaborated keyword name => rfl

theorem CType.toTy_eq (t : CType) : t.toTy = t.levels.toTy := by
  rw [toTy, toTyUnder_eq, Levels.qualify_none]

namespace Levels

variable {l : Levels} {ty : Ty}

theorem Fits.isConst_eq (h : l.Fits ty) : ty.isConst = l.quals.isConst := by
  cases h <;> rfl

/-- A type that comes out has the levels of the chain, and no regions. -/
theorem fits_of_toTy (h : l.toTy = .ok ty) : l.Fits ty ∧ ty.regions = [] := by
  induction l generalizing ty with
  | bottom quals what =>
      cases what with
      | tagged keyword name => cases h
      | builtin kind =>
          rw [toTy] at h
          split at h
          · cases h
          · cases h
            exact ⟨.bottom quals kind, rfl⟩
  | pointer quals below ih =>
      obtain ⟨p, hp, hend⟩ := bind_eq_ok.mp h
      obtain ⟨hfits, hbare⟩ := ih hp
      split at hend
      · cases hend
      · cases hend
        refine ⟨.pointer quals none hfits ?_, hbare⟩
        rw [← hfits.isConst_eq]
        cases p.isConst <;> simp

/-! ### What is wrong with a type -/

theorem toTy_of_tagged {keyword : TagKeyword} {name : String} (h : l.what = .tagged keyword name) :
    l.toTy = .error (.unsupported (.elaboratedType keyword name)) := by
  induction l with
  | bottom quals what =>
      rw [Levels.what] at h
      rw [h]
      rfl
  | pointer quals below ih => exact bind_eq_error.mpr (.inl (ih h))

theorem toTy_of_restrict {kind : Builtin} (h : l.what = .builtin kind)
    (hrestrict : l.bottomQuals.isRestrict) : l.toTy = .error (.type .restrictOnNonPointer) := by
  induction l with
  | bottom quals what =>
      rw [Levels.what] at h
      rw [h]
      exact if_pos hrestrict
  | pointer quals below ih => exact bind_eq_error.mpr (.inl (ih h hrestrict))

/-- Without a clash nothing else is wrong, since each pointer finds a type below it. -/
theorem exists_toTy {kind : Builtin} (h : l.what = .builtin kind)
    (hrestrict : ¬ l.bottomQuals.isRestrict) (hclash : ¬ l.Clashes) : ∃ ty, l.toTy = .ok ty := by
  induction l with
  | bottom quals what =>
      rw [Levels.what] at h
      rw [h]
      exact ⟨_, if_neg hrestrict⟩
  | pointer quals below ih =>
      rw [Clashes, not_or] at hclash
      obtain ⟨p, hp⟩ := ih h hrestrict hclash.2
      have hnot : ¬ (p.isConst ∧ quals.isRestrict) := by
        rw [(fits_of_toTy hp).1.isConst_eq, and_comm]
        exact hclash.1
      exact ⟨_, bind_eq_ok.mpr ⟨p, hp, if_neg hnot⟩⟩

/-- The innermost clash is met first, and all of them are told alike. -/
theorem toTy_of_clashes {kind : Builtin} (h : l.what = .builtin kind)
    (hrestrict : ¬ l.bottomQuals.isRestrict) (hclash : l.Clashes) :
    l.toTy = .error (.type .constRestrictPointer) := by
  induction l with
  | bottom quals what => exact hclash.elim
  | pointer quals below ih =>
      by_cases hbelow : below.Clashes
      · exact bind_eq_error.mpr (.inl (ih h hrestrict hbelow))
      · obtain ⟨p, hp⟩ := exists_toTy (l := below) h hrestrict hbelow
        have hhere : p.isConst ∧ quals.isRestrict := by
          rw [(fits_of_toTy hp).1.isConst_eq, and_comm]
          exact hclash.resolve_right hbelow
        exact bind_eq_error.mpr (.inr ⟨p, hp, if_pos hhere⟩)

theorem exists_toTy_iff :
    (∃ ty, l.toTy = .ok ty) ↔
      (∃ kind, l.what = .builtin kind) ∧ ¬ l.bottomQuals.isRestrict ∧ ¬ l.Clashes := by
  constructor
  · rintro ⟨ty, hty⟩
    cases hwhat : l.what with
    | tagged keyword name =>
        rw [toTy_of_tagged hwhat] at hty
        cases hty
    | builtin kind =>
        refine ⟨⟨kind, rfl⟩, ?_, ?_⟩
        · intro hrestrict
          rw [toTy_of_restrict hwhat hrestrict] at hty
          cases hty
        · intro hclash
          by_cases hrestrict : l.bottomQuals.isRestrict
          · rw [toTy_of_restrict hwhat hrestrict] at hty
            cases hty
          · rw [toTy_of_clashes hwhat hrestrict hclash] at hty
            cases hty
  · rintro ⟨⟨kind, hwhat⟩, hrestrict, hclash⟩
    exact exists_toTy hwhat hrestrict hclash

/-! ### Types with regions -/

theorem Fits.depth_eq (h : l.Fits ty) : ty.depth = l.pointers := by
  induction h with
  | bottom quals kind => rfl
  | pointer quals region hbelow hkind ih => rw [Ty.depth, pointers, ih]

theorem Fits.number (h : l.Fits ty) (next : RegionId) : l.Fits (ty.number next) := by
  induction h with
  | bottom quals kind => exact .bottom quals kind
  | pointer quals region hbelow hkind ih => exact .pointer quals _ ih hkind

end Levels

theorem CType.fits_of_toTy {t : CType} {ty : Ty} (h : t.toTy = .ok ty) : t.levels.Fits ty :=
  (Levels.fits_of_toTy (t.toTy_eq ▸ h)).1

theorem Ty.regions_number (next : RegionId) (t : Ty) :
    (t.number next).regions = (List.range' next t.depth).reverse := by
  induction t with
  | builtin kind isConst => rfl
  | ref kind pointee region isConst isRestrict ih =>
      rw [number, regions, ih, depth, List.range'_1_concat, List.reverse_append]
      rfl

theorem Regions.toList_extend (rs : Regions) (site : Site) (n : Nat) :
    (rs.extend site n).toList =
      rs.toList ++ (List.range' rs.size n).map fun r => Region.made r site := by
  induction n with
  | zero => simp [extend]
  | succ n ih =>
      rw [extend, fresh, ih, size_extend, List.range'_1_concat, List.map_append, List.append_assoc]
      rfl

/-- What becomes of a declared type. It stands for a reference type exactly if its bottom is a
builtin without `restrict` and no `restrict` pointer has a `const` level directly below it; that
type has the levels of the chain. Of the things that may be wrong, a tagged bottom is told first,
then `restrict` at the bottom, then a clash. A variable declared with the type fails in the same
way, or else gets it with a new region for each reference, the smallest at the innermost. -/
theorem CType.toTy_outcome (t : CType) :
    ((∃ ty, t.toTy = .ok ty) ↔
      (∃ kind, t.levels.what = .builtin kind) ∧ ¬ t.levels.bottomQuals.isRestrict ∧
        ¬ t.levels.Clashes) ∧
    (∀ ty, t.toTy = .ok ty → t.levels.Fits ty ∧ ty.regions = []) ∧
    (∀ keyword name, t.levels.what = .tagged keyword name →
      t.toTy = .error (.unsupported (.elaboratedType keyword name))) ∧
    (∀ kind, t.levels.what = .builtin kind → t.levels.bottomQuals.isRestrict →
      t.toTy = .error (.type .restrictOnNonPointer)) ∧
    (∀ kind, t.levels.what = .builtin kind → ¬ t.levels.bottomQuals.isRestrict → t.levels.Clashes →
      t.toTy = .error (.type .constRestrictPointer)) ∧
    ∀ (site : DeclId → Site) (reg : Registry) (d : Decl), d.ty.ty = t →
      (∀ cause, t.toTy = .error cause → reg.add site d = .error ⟨cause, d.span⟩) ∧
      ∀ ty, t.toTy = .ok ty → ∃ reg' ty',
        reg.add site d = .ok reg' ∧ reg'.declared = reg.declared.add d.variable ty' ∧
        t.levels.Fits ty' ∧
        ty'.regions = (List.range' reg.regions.size t.levels.pointers).reverse ∧
        reg'.regions.toList = reg.regions.toList ++
          (List.range' reg.regions.size t.levels.pointers).map fun r =>
            Region.made r (site d.id) := by
  rw [toTy_eq]
  refine ⟨Levels.exists_toTy_iff, fun ty => Levels.fits_of_toTy,
    fun keyword name => Levels.toTy_of_tagged, fun kind => Levels.toTy_of_restrict,
    fun kind => Levels.toTy_of_clashes, ?_⟩
  intro site reg d hd
  rw [← hd, ← toTy_eq]
  refine ⟨?_, ?_⟩
  · intro cause hcause
    rw [Registry.add, hcause]
    rfl
  · intro ty hty
    have hfits := fits_of_toTy hty
    refine ⟨_, ty.number reg.regions.size, by rw [Registry.add, hty]; rfl, rfl,
      hfits.number _, ?_, ?_⟩
    · rw [Ty.regions_number, hfits.depth_eq]
    · rw [Regions.toList_extend, hfits.depth_eq]

/-- A `restrict` pointer to a `const` pointer to a `restrict` integer. -/
def CType.twiceWrong : CType :=
  .qualified ⟨false, true, false⟩
    (.pointer (.qualified ⟨true, false, false⟩
      (.pointer (.qualified ⟨false, true, false⟩ (.builtin .int)))))

/-- Of its two faults the one at the bottom is told. -/
theorem CType.toTy_outcome_twiceWrong :
    twiceWrong.levels.Clashes ∧ twiceWrong.levels.bottomQuals.isRestrict ∧
      twiceWrong.toTy = .error (.type .restrictOnNonPointer) := by
  obtain ⟨-, -, -, hrestrict, -⟩ := toTy_outcome twiceWrong
  exact ⟨.inl ⟨rfl, rfl⟩, rfl, hrestrict .int rfl rfl⟩

end LoanScope
