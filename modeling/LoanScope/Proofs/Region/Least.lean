import LoanScope.Proofs.Region.Solve
import Mathlib.Logic.Relation

/-! Solved regions are the least that satisfy their constraints: a point gets into a region only
along a chain of constraints, and what a chain asks for is there. -/

namespace LoanScope

namespace Regions

/-! ### Regions without their points -/

/-- The regions with all points taken away. Only the points of a region ever change. -/
def bare (rs : Regions) : Regions := ⟨rs.toList.map fun region => { region with points := ∅ }⟩

theorem get?_bare (rs : Regions) (r : RegionId) :
    rs.bare.get? r = (rs.get? r).map fun region => { region with points := ∅ } := by
  simp [bare, get?]

theorem bare_setPoints (rs : Regions) (r : RegionId) (points : IdSet) :
    (rs.setPoints r points).bare = rs.bare := by
  simp only [bare, setPoints, Regions.mk.injEq]
  apply List.ext_getElem?
  intro i
  simp only [List.getElem?_map, List.getElem?_modify]
  by_cases hi : r = i
  · cases rs.toList[i]? <;> simp [hi]
  · simp [hi]

theorem size_eq_of_bare {rs rs' : Regions} (h : rs.bare = rs'.bare) : rs.size = rs'.size := by
  have hlength := congrArg (fun rs => rs.toList.length) h
  simpa [bare, size] using hlength

/-- Regions are determined by their points and by what they are besides. -/
theorem eq_of_bare {rs rs' : Regions} (hbare : rs.bare = rs'.bare)
    (hpoints : ∀ r p, p ∈ rs.points r ↔ p ∈ rs'.points r) : rs = rs' := by
  obtain ⟨list⟩ := rs
  obtain ⟨list'⟩ := rs'
  rw [Regions.mk.injEq]
  apply List.ext_getElem?
  intro i
  have hi : (list[i]?).map (fun region => { region with points := ∅ }) =
      (list'[i]?).map (fun region : Region => { region with points := ∅ }) := by
    simpa [bare] using congrArg (fun rs => rs.toList[i]?) hbare
  have hsame : (⟨list⟩ : Regions).points i = (⟨list'⟩ : Regions).points i := IdSet.ext (hpoints i)
  cases hl : list[i]? with
  | none => simpa [hl, eq_comm] using hi
  | some region =>
      cases hl' : list'[i]? with
      | none => simp [hl, hl'] at hi
      | some region' =>
          simp only [hl, hl', Option.map_some, Option.some.injEq, Region.mk.injEq, and_true] at hi
          simp only [points, get?, hl, hl', Option.map_some, Option.getD_some] at hsame
          obtain ⟨hid, hkind, hname, hsite⟩ := hi
          obtain ⟨id, kind, name, site, points⟩ := region
          obtain ⟨id', kind', name', site', points'⟩ := region'
          simp_all

end Regions

theorem Constraint.bare_apply (rs : Regions) (c : Constraint) : (c.apply rs).1.bare = rs.bare := by
  rw [apply_eq, Regions.bare_setPoints]

/-! ### What every constraint keeps, solving keeps -/

namespace Regions

theorem solve_induction {P : Regions → Prop} {cs : List Constraint} {rs : Regions} (h : P rs)
    (hkeep : ∀ c ∈ cs, ∀ rs, P rs → P (c.apply rs).1) : P (rs.solve cs).1 := by
  rw [solve]
  generalize passBound cs rs = fuel
  induction fuel generalizing rs with
  | zero => exact h
  | succ fuel ih =>
      have hpass := pass_induction h hkeep
      rw [solveWithin]
      split
      · exact ih hpass
      · exact hpass

theorem bare_solve (cs : List Constraint) (rs : Regions) : (rs.solve cs).1.bare = rs.bare :=
  solve_induction (P := fun rs' => rs'.bare = rs.bare) rfl fun c _ rs' h =>
    (c.bare_apply rs').trans h

theorem mem_points_solve_of_mem {cs : List Constraint} {rs : Regions} {r : RegionId} {p : Nat}
    (h : p ∈ rs.points r) : p ∈ (rs.solve cs).1.points r :=
  solve_induction (P := fun rs' => p ∈ rs'.points r) h fun _ _ _ hp =>
    Constraint.mem_points_apply.mpr (.inl hp)

/-! ### Passes -/

/-- Passes over the constraints, one after the other, until one changes nothing; and their
number. -/
inductive Passes (cs : List Constraint) : Regions → Regions → Nat → Prop where
  | last {rs rs'} (h : pass cs rs = (rs', false)) : Passes cs rs rs' 1
  | next {rs rs₁ rs' n} (h : pass cs rs = (rs₁, true)) (hrest : Passes cs rs₁ rs' n) :
      Passes cs rs rs' (n + 1)

/-- If the constraints hold in the end, then no pass was missing. -/
theorem passes_solveWithin {cs : List Constraint} {fuel : Nat} {rs : Regions}
    (h : ∀ c ∈ cs, c.HoldsIn (solveWithin cs fuel rs).1) :
    Passes cs rs (solveWithin cs fuel rs).1 (solveWithin cs fuel rs).2 := by
  induction fuel generalizing rs with
  | zero => exact .last (pass_of_holdsIn h)
  | succ fuel ih =>
      rw [solveWithin] at h ⊢
      cases hchanged : (pass cs rs).2 with
      | false =>
          simp only [Bool.false_eq_true, if_false]
          exact .last (Prod.ext rfl hchanged)
      | true =>
          simp only [hchanged, if_true] at h ⊢
          exact .next (Prod.ext rfl hchanged) (ih h)

theorem solve_passes (cs : List Constraint) (rs : Regions) :
    Passes cs rs (rs.solve cs).1 (rs.solve cs).2 :=
  passes_solveWithin (solve_holdsIn cs rs).2

/-- Regions that satisfy their constraints stay as they are, and one pass finds that out. -/
theorem solve_of_holdsIn {cs : List Constraint} {rs : Regions} (h : ∀ c ∈ cs, c.HoldsIn rs) :
    rs.solve cs = (rs, 1) := by
  rw [solve]
  cases passBound cs rs with
  | zero => rfl
  | succ fuel => simp [solveWithin, pass_of_holdsIn h]

end Regions

/-! ### Chains -/

/-- A constraint lets `longer` outlive `shorter`, and both are below `size`. -/
def Constraint.Links (cs : List Constraint) (size : Nat) (longer shorter : RegionId) : Prop :=
  longer < size ∧ shorter < size ∧ ∃ p, .outlives longer shorter p ∈ cs

namespace Regions

/-- A chain of constraints leads from the region to one that has the point, or must have it. -/
def Due (cs : List Constraint) (rs : Regions) (r : RegionId) (p : Nat) : Prop :=
  ∃ s, Relation.ReflTransGen (Constraint.Links cs rs.size) r s ∧ s < rs.size ∧
    (p ∈ rs.points s ∨ .live s p ∈ cs)

variable {cs : List Constraint} {rs : Regions} {r : RegionId} {p : Nat}

theorem lt_size_of_mem_points (h : p ∈ rs.points r) : r < rs.size := by
  refine Nat.lt_of_not_le fun hle => ?_
  simp [points, get?_eq_none_iff.mpr hle] at h

theorem Due.lt_size (h : rs.Due cs r p) : r < rs.size := by
  obtain ⟨s, hchain, hs, -⟩ := h
  cases hchain using Relation.ReflTransGen.head_induction_on with
  | refl => exact hs
  | head hlink _ _ => exact hlink.1

/-- Applying a constraint adds only points that are due. -/
theorem Due.apply {rs' : Regions} (hsize : rs'.size = rs.size)
    (h : ∀ r p, p ∈ rs'.points r → rs.Due cs r p) {c : Constraint} (hc : c ∈ cs)
    (hp : p ∈ (c.apply rs').1.points r) : rs.Due cs r p := by
  rcases Constraint.mem_points_apply.mp hp with hold | ⟨rfl, hlt, hdemand⟩
  · exact h r p hold
  · rw [hsize] at hlt
    cases c with
    | outlives longer shorter q =>
        have hshorter : rs.Due cs shorter p := h shorter p hdemand
        have hlink : Constraint.Links cs rs.size longer shorter := ⟨hlt, hshorter.lt_size, q, hc⟩
        obtain ⟨s, hchain, hs⟩ := hshorter
        exact ⟨s, .head hlink hchain, hs⟩
    | live r q =>
        obtain rfl : p = q := hdemand
        exact ⟨r, .refl, hlt, .inr hc⟩

theorem due_of_mem_points_solve (h : p ∈ (rs.solve cs).1.points r) : rs.Due cs r p := by
  have hall : (rs.solve cs).1.size = rs.size ∧ ∀ r p, p ∈ (rs.solve cs).1.points r →
      rs.Due cs r p := by
    apply solve_induction
      (P := fun rs' => rs'.size = rs.size ∧ ∀ r p, p ∈ rs'.points r → rs.Due cs r p)
    · exact ⟨rfl, fun r p hp => ⟨r, .refl, lt_size_of_mem_points hp, .inl hp⟩⟩
    · rintro c hc rs' ⟨hsize, hdue⟩
      exact ⟨(c.size_apply rs').trans hsize, fun r p hp => Due.apply hsize hdue hc hp⟩
  exact hall.2 r p h

theorem mem_points_solve_of_due (h : rs.Due cs r p) : p ∈ (rs.solve cs).1.points r := by
  obtain ⟨hsize, hholds⟩ := solve_holdsIn cs rs
  obtain ⟨s, hchain, hs, hp⟩ := h
  induction hchain using Relation.ReflTransGen.head_induction_on with
  | refl =>
      rcases hp with hhere | hlive
      · exact mem_points_solve_of_mem hhere
      · exact hholds _ hlive (hsize ▸ hs) p rfl
  | head hlink _ ih =>
      obtain ⟨hlonger, -, q, hmem⟩ := hlink
      exact hholds _ hmem (hsize ▸ hlonger) p ih

theorem mem_points_solve : p ∈ (rs.solve cs).1.points r ↔ rs.Due cs r p :=
  ⟨due_of_mem_points_solve, mem_points_solve_of_due⟩

/-- What is due depends on which constraints there are, and not on their order or number. -/
theorem Due.mono {cs' : List Constraint} (hsub : ∀ c ∈ cs, c ∈ cs') (h : rs.Due cs r p) :
    rs.Due cs' r p := by
  obtain ⟨s, hchain, hs, hp⟩ := h
  refine ⟨s, Relation.ReflTransGen.mono ?_ _ _ hchain, hs, hp.imp_right (hsub _)⟩
  rintro a b ⟨ha, hb, q, hq⟩
  exact ⟨ha, hb, q, hsub _ hq⟩

/-- Solving passes over the constraints until they change nothing. A point is then in a region
exactly if a chain of constraints leads from the region to one that had the point before, or that is
live there. So the result depends on the set of constraints only, and nothing but points has
changed. -/
theorem solve_least (cs : List Constraint) (rs : Regions) :
    Passes cs rs (rs.solve cs).1 (rs.solve cs).2 ∧
    (∀ r p, p ∈ (rs.solve cs).1.points r ↔
      ∃ s, Relation.ReflTransGen (Constraint.Links cs rs.size) r s ∧ s < rs.size ∧
        (p ∈ rs.points s ∨ .live s p ∈ cs)) ∧
    (∀ cs', (∀ c, c ∈ cs' ↔ c ∈ cs) → (rs.solve cs').1 = (rs.solve cs).1) ∧
    (rs.solve cs).1.bare = rs.bare := by
  refine ⟨solve_passes cs rs, fun r p => mem_points_solve, ?_, bare_solve cs rs⟩
  intro cs' hsame
  apply eq_of_bare
  · rw [bare_solve, bare_solve]
  · intro r p
    rw [mem_points_solve, mem_points_solve]
    exact ⟨Due.mono fun c => (hsame c).mp, Due.mono fun c => (hsame c).mpr⟩

end Regions

end LoanScope
