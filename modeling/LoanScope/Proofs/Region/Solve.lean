import LoanScope.Constraint
import LoanScope.Proofs.IdSet
import Mathlib.Algebra.Order.BigOperators.Group.Finset

/-! Solved regions satisfy their constraints. A pass that changes anything adds a point to a region,
and there are only so many points to add. -/

namespace LoanScope

namespace Regions

theorem get?_eq_none_iff {rs : Regions} {r : RegionId} : rs.get? r = none ↔ rs.size ≤ r :=
  List.getElem?_eq_none_iff

theorem points_setPoints {rs : Regions} {r r' : RegionId} {s : IdSet} :
    (rs.setPoints r s).points r' = if r' = r ∧ r < rs.size then s else rs.points r' := by
  simp only [points, get?, setPoints, List.getElem?_modify]
  by_cases hr : r' = r
  · subst hr
    by_cases hlt : r' < rs.size
    · have hsome : rs.toList[r']? = some (rs.toList.get ⟨r', hlt⟩) := List.getElem?_eq_getElem hlt
      simp [hsome, hlt]
    · have hnone : rs.toList[r']? = none := List.getElem?_eq_none (Nat.not_lt.mp hlt)
      simp [hnone, hlt]
  · simp [hr, Ne.symm hr]

@[simp] theorem size_setPoints (rs : Regions) (r : RegionId) (s : IdSet) :
    (rs.setPoints r s).size = rs.size := by
  simp [setPoints, size]

theorem setPoints_of_le {rs : Regions} {r : RegionId} {s : IdSet} (h : rs.size ≤ r) :
    rs.setPoints r s = rs := by
  rw [setPoints, List.modify_eq_self h]

/-- Giving a region the points that it has changes nothing. -/
@[simp] theorem setPoints_points (rs : Regions) (r : RegionId) :
    rs.setPoints r (rs.points r) = rs := by
  obtain ⟨list⟩ := rs
  rw [setPoints, Regions.mk.injEq]
  apply List.ext_getElem?
  intro i
  rw [List.getElem?_modify]
  by_cases hi : r = i
  · cases hget : list[i]? <;> simp [hi, points, get?, hget]
  · simp [hi]

theorem points_of_le {rs : Regions} {r : RegionId} (h : rs.size ≤ r) : rs.points r = ∅ := by
  rw [points, get?_eq_none_iff.mpr h]
  rfl

theorem lt_size_of_get? {rs : Regions} {r : RegionId} {region : Region}
    (h : rs.get? r = some region) : r < rs.size ∧ rs.points r = region.points := by
  refine ⟨(List.getElem?_eq_some_iff.mp h).1, ?_⟩
  rw [points, h]
  rfl

/-! ### The two updates -/

/-- Adding a point puts it into the region's set, and answers whether that set is another. -/
theorem addPoint_eq (rs : Regions) (r : RegionId) (p : NodeId) :
    rs.addPoint r p =
      (rs.setPoints r ((rs.points r).insert p),
        decide (r < rs.size ∧ (rs.points r).insert p ≠ rs.points r)) := by
  rw [addPoint]
  cases hget : rs.get? r with
  | none =>
      have hle := get?_eq_none_iff.mp hget
      simp [setPoints_of_le hle, Nat.not_lt.mpr hle]
  | some region =>
      obtain ⟨hlt, hpoints⟩ := lt_size_of_get? hget
      simp [hpoints, hlt, IdSet.insert_eq_self_iff]

/-- Nothing is lost by leaving early: a region already has its own points, and one that does not
exist has none to give. The sizes differ exactly if the sets do, since one contains the other. -/
theorem union_eq (rs : Regions) (longer shorter : RegionId) :
    rs.union longer shorter =
      (rs.setPoints longer ((rs.points longer).union (rs.points shorter)),
        decide (longer < rs.size ∧
          (rs.points longer).union (rs.points shorter) ≠ rs.points longer)) := by
  have hkept : (∀ a ∈ rs.points shorter, a ∈ rs.points longer) →
      (rs, false) =
        (rs.setPoints longer ((rs.points longer).union (rs.points shorter)),
          decide (longer < rs.size ∧
            (rs.points longer).union (rs.points shorter) ≠ rs.points longer)) := by
    intro h
    simp [IdSet.union_eq_self_iff.mpr h]
  rw [union]
  split
  · rename_i hsame
    exact hkept (hsame ▸ fun a ha => ha)
  · cases hshorter : rs.get? shorter with
    | none =>
        refine hkept ?_
        simp [points_of_le (get?_eq_none_iff.mp hshorter)]
    | some incoming =>
        cases hlonger : rs.get? longer with
        | none =>
            have hle := get?_eq_none_iff.mp hlonger
            simp [setPoints_of_le hle, Nat.not_lt.mpr hle]
        | some target =>
            obtain ⟨hlt, htarget⟩ := lt_size_of_get? hlonger
            obtain ⟨-, hincoming⟩ := lt_size_of_get? hshorter
            have hgrew : ((target.points.union incoming.points).card != target.points.card) =
                decide (target.points.union incoming.points ≠ target.points) := by
              have hcard := IdSet.card_eq_iff_of_subset
                fun a (ha : a ∈ target.points) =>
                  IdSet.mem_union.mpr (Or.inl ha : a ∈ target.points ∨ a ∈ incoming.points)
              rw [Bool.eq_iff_iff, bne_iff_ne, decide_eq_true_iff, Ne, hcard]
            simp only [hgrew, htarget, hincoming, hlt, true_and]

end Regions

/-! ### One constraint -/

namespace Constraint

/-- The region that the constraint lets grow. -/
def region : Constraint → RegionId
  | outlives longer _ _ => longer
  | live r _ => r

/-- The points that the constraint asks its region to have. -/
def Demands (rs : Regions) : Constraint → Nat → Prop
  | outlives _ shorter _, a => a ∈ rs.points shorter
  | live _ p, a => a = p

/-- The region has what the constraint demands. Constraints on regions that do not exist ask
nothing. -/
def HoldsIn (rs : Regions) (c : Constraint) : Prop :=
  c.region < rs.size → ∀ a, c.Demands rs a → a ∈ rs.points c.region

/-- The points of the constraint's region with those that it demands. -/
def grown (rs : Regions) : Constraint → IdSet
  | outlives longer shorter _ => (rs.points longer).union (rs.points shorter)
  | live r p => (rs.points r).insert p

theorem mem_grown {rs : Regions} {c : Constraint} {a : Nat} :
    a ∈ c.grown rs ↔ a ∈ rs.points c.region ∨ c.Demands rs a := by
  cases c with
  | outlives longer shorter p => simp [grown, region, Demands]
  | live r p => simp [grown, region, Demands, or_comm]

theorem apply_eq (rs : Regions) (c : Constraint) :
    c.apply rs =
      (rs.setPoints c.region (c.grown rs),
        decide (c.region < rs.size ∧ c.grown rs ≠ rs.points c.region)) := by
  cases c with
  | outlives longer shorter p => exact rs.union_eq longer shorter
  | live r p => exact rs.addPoint_eq r p

theorem size_apply (rs : Regions) (c : Constraint) : (c.apply rs).1.size = rs.size := by
  rw [apply_eq, Regions.size_setPoints]

theorem mem_points_apply {rs : Regions} {c : Constraint} {r : RegionId} {a : Nat} :
    a ∈ (c.apply rs).1.points r ↔
      a ∈ rs.points r ∨ r = c.region ∧ r < rs.size ∧ c.Demands rs a := by
  rw [apply_eq, Regions.points_setPoints]
  split
  · rename_i h
    obtain ⟨rfl, hlt⟩ := h
    simp [mem_grown, hlt]
  · rename_i h
    constructor
    · exact .inl
    · rintro (ha | ⟨rfl, hlt, -⟩)
      · exact ha
      · exact absurd ⟨rfl, hlt⟩ h

/-- A constraint holds exactly if there is nothing to grow. -/
theorem holdsIn_iff {rs : Regions} {c : Constraint} :
    c.HoldsIn rs ↔ (c.region < rs.size → c.grown rs = rs.points c.region) := by
  refine forall_congr' fun _ => ?_
  constructor
  · intro h
    apply IdSet.ext
    intro a
    rw [mem_grown]
    exact ⟨fun ha => ha.elim id (h a), .inl⟩
  · intro h a hdemand
    rw [← h]
    exact mem_grown.mpr (.inr hdemand)

/-- The answer is exact: it is `false` for the constraints that hold, and for no others. -/
theorem apply_snd_iff {rs : Regions} {c : Constraint} :
    (c.apply rs).2 = true ↔ ¬ c.HoldsIn rs := by
  rw [apply_eq, holdsIn_iff, decide_eq_true_iff, Classical.not_imp]

theorem apply_of_holdsIn {rs : Regions} {c : Constraint} (h : c.HoldsIn rs) :
    c.apply rs = (rs, false) := by
  refine Prod.ext ?_ (Bool.eq_false_iff.mpr fun hchanged => apply_snd_iff.mp hchanged h)
  rw [apply_eq]
  rcases Nat.lt_or_ge c.region rs.size with hlt | hge
  · rw [holdsIn_iff.mp h hlt, Regions.setPoints_points]
  · exact Regions.setPoints_of_le hge

/-- A constraint that does not hold adds a point, and says so. -/
theorem apply_of_not_holdsIn {rs : Regions} {c : Constraint} (h : ¬ c.HoldsIn rs) :
    (c.apply rs).2 = true ∧
      ∃ r a, r < rs.size ∧ a ∈ (c.apply rs).1.points r ∧ a ∉ rs.points r := by
  refine ⟨apply_snd_iff.mpr h, ?_⟩
  simp only [HoldsIn, Classical.not_imp, not_forall] at h
  obtain ⟨hlt, a, hdemand, hnew⟩ := h
  exact ⟨c.region, a, hlt, mem_points_apply.mpr (.inr ⟨rfl, hlt, hdemand⟩), hnew⟩

end Constraint

/-! ### A pass -/

namespace Regions

/-- A pass only adds points, and does not forget that something changed before it. -/
theorem foldl_passStep_grows (cs : List Constraint) (rs : Regions) (changed : Bool) :
    (cs.foldl passStep (rs, changed)).1.size = rs.size ∧
      (∀ r a, a ∈ rs.points r → a ∈ (cs.foldl passStep (rs, changed)).1.points r) ∧
      (changed = true → (cs.foldl passStep (rs, changed)).2 = true) := by
  induction cs generalizing rs changed with
  | nil => exact ⟨rfl, fun r a ha => ha, id⟩
  | cons c rest ih =>
      obtain ⟨hsize, hmono, hflag⟩ := ih (c.apply rs).1 (changed || (c.apply rs).2)
      refine ⟨hsize.trans (c.size_apply rs), ?_, ?_⟩
      · intro r a ha
        exact hmono r a (Constraint.mem_points_apply.mpr (.inl ha))
      · intro h
        exact hflag (by simp [h])

theorem size_pass (cs : List Constraint) (rs : Regions) : (pass cs rs).1.size = rs.size :=
  (foldl_passStep_grows cs rs false).1

theorem mem_points_pass {cs : List Constraint} {rs : Regions} {r : RegionId} {a : Nat}
    (h : a ∈ rs.points r) : a ∈ (pass cs rs).1.points r :=
  (foldl_passStep_grows cs rs false).2.1 r a h

theorem pass_of_holdsIn {cs : List Constraint} {rs : Regions} (h : ∀ c ∈ cs, c.HoldsIn rs) :
    pass cs rs = (rs, false) := by
  rw [pass]
  induction cs with
  | nil => rfl
  | cons c rest ih =>
      have hstep : passStep (rs, false) c = (rs, false) := by
        simp [passStep, Constraint.apply_of_holdsIn (h c List.mem_cons_self)]
      rw [List.foldl_cons, hstep]
      exact ih fun c hc => h c (List.mem_cons_of_mem _ hc)

/-- A pass over constraints that do not all hold adds a point, and says so. -/
theorem pass_of_not_holdsIn {cs : List Constraint} {rs : Regions} (h : ¬ ∀ c ∈ cs, c.HoldsIn rs) :
    (pass cs rs).2 = true ∧ ∃ r a, r < rs.size ∧ a ∈ (pass cs rs).1.points r ∧ a ∉ rs.points r := by
  rw [pass]
  induction cs with
  | nil => simp at h
  | cons c rest ih =>
      rw [List.foldl_cons]
      by_cases hc : c.HoldsIn rs
      · -- The constraint changes nothing, so one of the others does not hold.
        have hstep : passStep (rs, false) c = (rs, false) := by
          simp [passStep, Constraint.apply_of_holdsIn hc]
        rw [hstep]
        apply ih
        intro hrest
        exact h (List.forall_mem_cons.mpr ⟨hc, hrest⟩)
      · obtain ⟨hchanged, r, a, hr, ha, hnew⟩ := Constraint.apply_of_not_holdsIn hc
        have hstep : passStep (rs, false) c = ((c.apply rs).1, true) := by
          simp [passStep, hchanged]
        obtain ⟨-, hmono, hflag⟩ := foldl_passStep_grows rest (c.apply rs).1 true
        rw [hstep]
        exact ⟨hflag rfl, r, a, hr, hmono r a ha, hnew⟩

/-- What every constraint keeps, a pass keeps. -/
theorem pass_induction {P : Regions → Prop} {cs : List Constraint} {rs : Regions} (h : P rs)
    (hkeep : ∀ c ∈ cs, ∀ rs, P rs → P (c.apply rs).1) : P (pass cs rs).1 := by
  have hfold : ∀ changed, P (cs.foldl passStep (rs, changed)).1 := by
    induction cs generalizing rs with
    | nil => exact fun _ => h
    | cons c rest ih =>
        intro changed
        refine ih (hkeep c List.mem_cons_self rs h) ?_ _
        intro c' hc'
        exact hkeep c' (List.mem_cons_of_mem _ hc')
  exact hfold false

/-- All points of all regions are among `points`. -/
def Within (points : Finset Nat) (rs : Regions) : Prop := ∀ r, ∀ a ∈ rs.points r, a ∈ points

theorem Within.pass {points : Finset Nat} {cs : List Constraint} {rs : Regions}
    (h : rs.Within points) (hcs : ∀ c ∈ cs, c.point ∈ points) : (pass cs rs).1.Within points := by
  refine pass_induction h ?_
  intro c hc rs' h' r a ha
  rcases Constraint.mem_points_apply.mp ha with hold | ⟨-, -, hdemand⟩
  · exact h' r a hold
  · have hpoint := hcs c hc
    cases c with
    | outlives longer shorter p => exact h' shorter a hdemand
    | live r p =>
        rw [hdemand]
        exact hpoint

/-! ### All passes -/

/-- The number of points in all regions. -/
def weight (rs : Regions) : Nat := ∑ r ∈ Finset.range rs.size, (rs.points r).card

theorem Within.weight_le {points : Finset Nat} {rs : Regions} (h : rs.Within points) :
    rs.weight ≤ rs.size * points.card := by
  have hregion : ∀ r ∈ Finset.range rs.size, (rs.points r).card ≤ points.card := by
    intro r _
    rw [← IdSet.card_toFinset]
    apply Finset.card_le_card
    intro a ha
    exact h r a (IdSet.mem_toFinset.mp ha)
  calc rs.weight
      ≤ (Finset.range rs.size).card • points.card := Finset.sum_le_card_nsmul _ _ _ hregion
    _ = rs.size * points.card := by rw [Finset.card_range]; rfl

theorem weight_lt_pass {cs : List Constraint} {rs : Regions} (h : ¬ ∀ c ∈ cs, c.HoldsIn rs) :
    rs.weight < (pass cs rs).1.weight := by
  obtain ⟨-, r, a, hr, ha, hnew⟩ := pass_of_not_holdsIn h
  rw [weight, weight, size_pass]
  apply Finset.sum_lt_sum
  · intro r _
    rw [← IdSet.card_toFinset, ← IdSet.card_toFinset]
    apply Finset.card_le_card
    intro b hb
    exact IdSet.mem_toFinset.mpr (mem_points_pass (IdSet.mem_toFinset.mp hb))
  · refine ⟨r, Finset.mem_range.mpr hr, IdSet.card_lt_card (fun b hb => mem_points_pass hb) ?_⟩
    intro heq
    exact hnew (heq ▸ ha)

theorem solveWithin_holdsIn {points : Finset Nat} {cs : List Constraint} (fuel : Nat) {rs : Regions}
    (h : rs.Within points) (hcs : ∀ c ∈ cs, c.point ∈ points)
    (hfuel : rs.size * points.card ≤ rs.weight + fuel) :
    (solveWithin cs fuel rs).1.size = rs.size ∧ ∀ c ∈ cs, c.HoldsIn (solveWithin cs fuel rs).1 := by
  induction fuel generalizing rs with
  | zero =>
      refine ⟨rfl, ?_⟩
      by_contra hnot
      have hlt : rs.weight < (pass cs rs).1.weight := weight_lt_pass hnot
      have hle := (h.pass hcs).weight_le
      rw [size_pass] at hle
      omega
  | succ fuel ih =>
      rw [solveWithin]
      by_cases hall : ∀ c ∈ cs, c.HoldsIn rs
      · rw [pass_of_holdsIn hall]
        exact ⟨rfl, hall⟩
      · have hlt := weight_lt_pass hall
        have hrest := ih (h.pass hcs) (by rw [size_pass]; omega)
        rw [size_pass] at hrest
        rw [(pass_of_not_holdsIn hall).1]
        exact hrest

/-- Solved regions satisfy their constraints. -/
theorem solve_holdsIn (cs : List Constraint) (rs : Regions) :
    (rs.solve cs).1.size = rs.size ∧ ∀ c ∈ cs, c.HoldsIn (rs.solve cs).1 := by
  let points : Finset Nat := (rs.toList.flatMap (·.points.toList) ++
    cs.map Constraint.point).toFinset
  have hwithin : rs.Within points := by
    intro r a ha
    cases hget : rs.get? r with
    | none => simp [Regions.points, hget] at ha
    | some region =>
        simp only [Regions.points, hget, Option.map_some, Option.getD_some] at ha
        simp only [points, List.mem_toFinset, List.mem_append, List.mem_flatMap]
        exact .inl ⟨region, List.mem_of_getElem? hget, ha⟩
  have hcs : ∀ c ∈ cs, c.point ∈ points := by
    intro c hc
    simp only [points, List.mem_toFinset, List.mem_append, List.mem_map]
    exact .inr ⟨c, hc, rfl⟩
  have hcard : points.card ≤ (rs.toList.flatMap (·.points.toList)).length + cs.length := by
    rw [← cs.length_map Constraint.point, ← List.length_append]
    exact List.toFinset_card_le _
  refine solveWithin_holdsIn _ hwithin hcs ?_
  exact (Nat.mul_le_mul_left _ hcard).trans (Nat.le_add_left _ _)

end Regions

end LoanScope
