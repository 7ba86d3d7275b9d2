import LoanScope.Proofs.Place

/-! The types of declared variables: one for each declaration, and every level of reference in them
has a region that exists. -/

namespace LoanScope

/-- Every level of reference has a region below `bound`. -/
def Ty.Placed (bound : Nat) : Ty → Prop
  | builtin _ _ => True
  | ref _ pointee region _ _ => (∃ r, region = some r ∧ r < bound) ∧ pointee.Placed bound

theorem Ty.Placed.mono {bound more : Nat} (hle : bound ≤ more) :
    ∀ {t : Ty}, t.Placed bound → t.Placed more
  | .builtin _ _, _ => trivial
  | .ref _ _ _ _ _, ⟨⟨r, hr, hlt⟩, hpointee⟩ =>
      ⟨⟨r, hr, Nat.lt_of_lt_of_le hlt hle⟩, hpointee.mono hle⟩

theorem Ty.placed_number (next : RegionId) (t : Ty) : (t.number next).Placed (next + t.depth) := by
  induction t with
  | builtin kind isConst => trivial
  | ref kind pointee region isConst isRestrict ih =>
      refine ⟨⟨next + pointee.depth, rfl, Nat.lt_succ_self _⟩, ih.mono ?_⟩
      exact Nat.le_succ _

theorem Ty.Placed.exists_region {bound : Nat} {t : Ty} (h : t.Placed bound) (href : t.isRef) :
    ∃ r, t.region? = some r := by
  cases t with
  | builtin _ _ => cases href
  | ref kind pointee region isConst isRestrict =>
      obtain ⟨⟨r, rfl, -⟩, -⟩ := h
      exact ⟨r, rfl⟩

theorem Ty.Placed.region_lt {bound : Nat} {t : Ty} (h : t.Placed bound) {r : RegionId}
    (hr : t.region? = some r) : r < bound := by
  cases t with
  | builtin _ _ => cases hr
  | ref kind pointee region isConst isRestrict =>
      obtain ⟨⟨r, rfl, hlt⟩, -⟩ := h
      cases hr
      exact hlt

theorem Ty.isRef_of_region? {t : Ty} {r : RegionId} (hr : t.region? = some r) : t.isRef := by
  cases t with
  | builtin _ _ => cases hr
  | ref _ _ _ _ _ => rfl

/-- The region of a reference is one of its regions. -/
theorem Ty.mem_regions_of_region? {t : Ty} {r : RegionId} (hr : t.region? = some r) :
    r ∈ t.regions := by
  cases t with
  | builtin _ _ => cases hr
  | ref kind pointee region isConst isRestrict =>
      obtain rfl : region = some r := hr
      simp [regions]

/-- A value passes only between two references or between two that are none. -/
theorem TransferKind.isRef_eq_of_classify {dest src : Ty} {kind : TransferKind}
    (h : TransferKind.classify dest src = .ok kind) : dest.isRef = src.isRef := by
  rw [classify] at h
  split at h <;> simp_all [Ty.isCopyable]

theorem Regions.size_fresh (rs : Regions) (kind : RegionKind) (name : Option String)
    (site : Option Site) : (rs.fresh kind name site).size = rs.size + 1 := by
  simp [fresh, size]

theorem Regions.size_extend (rs : Regions) (site : Site) (n : Nat) :
    (rs.extend site n).size = rs.size + n := by
  induction n with
  | zero => rfl
  | succ n ih => rw [extend, size_fresh, ih, Nat.add_assoc]

/-- The registry knows these declarations, in order. -/
structure Registry.Knows (r : Registry) (decls : List Decl) : Prop where
  map_variable : r.declared.entries.map Prod.fst = decls.map Decl.variable
  placed : ∀ e ∈ r.declared.entries, e.2.Placed r.regions.size

theorem Registry.Knows.add {site : DeclId → Site} {r r' : Registry} {decls : List Decl} {d : Decl}
    (h : r.Knows decls) (hadd : r.add site d = .ok r') : r'.Knows (decls ++ [d]) := by
  obtain ⟨ty, -, hend⟩ := bind_eq_ok.mp hadd
  cases hend
  refine ⟨by simp [Declared.add, h.map_variable], ?_⟩
  intro e he
  rw [Regions.size_extend]
  rcases List.mem_append.mp he with hold | hnew
  · exact (h.placed e hold).mono (Nat.le_add_right _ _)
  · rw [List.mem_singleton.mp hnew]
    exact ty.placed_number r.regions.size

theorem Registry.Knows.foldlM {site : DeclId → Site} {r r' : Registry} {decls more : List Decl}
    (h : r.Knows decls) (hfold : more.foldlM (Registry.add site) r = .ok r') :
    r'.Knows (decls ++ more) := by
  induction more generalizing r decls with
  | nil =>
      cases hfold
      simpa using h
  | cons d rest ih =>
      obtain ⟨r₁, hadd, hrest⟩ := bind_eq_ok.mp hfold
      have hknows := ih (h.add hadd) hrest
      rwa [List.append_assoc] at hknows

/-- Parameters are registered first, and then what the nodes declare. -/
theorem Function.registry_folds {f : Function} {r : Registry} (h : f.registry = .ok r) :
    ∃ r₁, f.params.foldlM (Registry.add .param) ⟨.empty, .initial⟩ = .ok r₁ ∧
      (f.nodes.flatMap (·.step.decls)).foldlM (Registry.add .decl) r₁ = .ok r := by
  obtain ⟨r₁, hparams, hrest⟩ := bind_eq_ok.mp h
  refine ⟨r₁, hparams, ?_⟩
  cases hreturn : f.returnTy with
  | none =>
      simp only [hreturn] at hrest
      exact hrest
  | some ty =>
      simp only [hreturn] at hrest
      obtain ⟨_, -, hlast⟩ := bind_eq_ok.mp hrest
      exact hlast

theorem Function.registry_knows {f : Function} {r : Registry} (h : f.registry = .ok r) :
    r.Knows (f.params ++ f.nodes.flatMap (·.step.decls)) := by
  obtain ⟨r₁, hparams, hdecls⟩ := Function.registry_folds h
  have hknows : r₁.Knows ([] ++ f.params) :=
    Registry.Knows.foldlM ⟨rfl, by simp [Declared.empty]⟩ hparams
  exact hknows.foldlM hdecls

/-- The type of a variable is that of an entry with its number. -/
theorem TypedPlace.Typed.mem_entries {d : Declared} {p : TypedPlace} {v : Variable} (h : p.Typed d)
    (hplace : p.place = .var v) : ∃ e ∈ d.entries, e.1.decl = v.decl ∧ e.2 = p.ty := by
  rw [TypedPlace.Typed, hplace, Place.typeIn] at h
  cases hget : d.get? v.decl with
  | none => simp [hget] at h
  | some ty =>
      simp only [hget, Except.ok.injEq] at h
      exact h ▸ Declared.mem_entries_of_get? hget

end LoanScope
