import LoanScope.Proofs.Data.List
import LoanScope.Proofs.Region.Least
import Mathlib.Data.List.Induction

/-! Regions under calls in any order, with any region ids. Regions are only added, each keeps what
it was made with and loses no point, and calls that may add points say exactly whether they did. -/

namespace LoanScope

/-! ### One constraint -/

namespace Constraint

/-- The regions that a constraint names. -/
def named : Constraint → List RegionId
  | outlives longer shorter _ => [longer, shorter]
  | live r _ => [r]

/-- A constraint says that it changed something exactly if the points of a region are others. -/
theorem changed_iff {rs : Regions} {c : Constraint} :
    (c.apply rs).2 = true ↔ ∃ r, (c.apply rs).1.points r ≠ rs.points r := by
  by_cases h : c.HoldsIn rs
  · simp [apply_of_holdsIn h]
  · obtain ⟨hchanged, r, p, -, hp, hnew⟩ := apply_of_not_holdsIn h
    exact iff_of_true hchanged ⟨r, fun heq => hnew (heq ▸ hp)⟩

/-- A region that does not exist has no points to give, and takes none. -/
theorem holdsIn_of_size_le {rs : Regions} {c : Constraint} {r : RegionId} (hr : r ∈ c.named)
    (hsize : rs.size ≤ r) : c.HoldsIn rs := by
  intro hlt a hdemand
  cases c with
  | outlives longer shorter q =>
      have hshorter : shorter < rs.size := Regions.lt_size_of_mem_points hdemand
      rcases List.mem_cons.mp hr with rfl | hr
      · exact absurd hlt (Nat.not_lt.mpr hsize)
      · rw [List.mem_singleton.mp hr] at hsize
        exact absurd hshorter (Nat.not_lt.mpr hsize)
  | live s q =>
      rw [List.mem_singleton.mp hr] at hsize
      exact absurd hlt (Nat.not_lt.mpr hsize)

/-- All regions that a constraint names are below `size`. -/
def isInside (size : Nat) (c : Constraint) : Bool := c.named.all (· < size)

theorem apply_of_outside {rs : Regions} {c : Constraint} (h : c.isInside rs.size = false) :
    c.apply rs = (rs, false) := by
  simp only [isInside, List.all_eq_false, decide_eq_true_eq, Nat.not_lt] at h
  obtain ⟨r, hr, hsize⟩ := h
  exact apply_of_holdsIn (holdsIn_of_size_le hr hsize)

end Constraint

namespace Regions

/-! ### Solving -/

theorem Passes.unique {cs : List Constraint} {rs rs₁ rs₂ : Regions} {m n : Nat}
    (h : Passes cs rs rs₁ m) (h' : Passes cs rs rs₂ n) : (rs₁, m) = (rs₂, n) := by
  induction h generalizing n with
  | last hpass =>
      cases h' with
      | last hpass' =>
          rw [hpass] at hpass'
          cases hpass'
          rfl
      | next hpass' _ =>
          rw [hpass] at hpass'
          cases hpass'
  | next hpass _ ih =>
      cases h' with
      | last hpass' =>
          rw [hpass] at hpass'
          cases hpass'
      | next hpass' hrest' =>
          rw [hpass] at hpass'
          cases hpass'
          cases ih hrest'
          rfl

/-- Constraints on regions that do not exist make no difference to a pass. -/
theorem pass_filter (cs : List Constraint) (rs : Regions) :
    pass (cs.filter (·.isInside rs.size)) rs = pass cs rs := by
  have hfold : ∀ (state : Regions × Bool), state.1.size = rs.size →
      (cs.filter (·.isInside rs.size)).foldl passStep state = cs.foldl passStep state := by
    induction cs with
    | nil => exact fun _ _ => rfl
    | cons c rest ih =>
        intro state hsize
        cases hin : c.isInside rs.size with
        | true =>
            rw [List.filter_cons_of_pos hin, List.foldl_cons, List.foldl_cons]
            exact ih _ ((c.size_apply state.1).trans hsize)
        | false =>
            have hstep : passStep state c = state := by
              simp [passStep, Constraint.apply_of_outside (hsize ▸ hin)]
            rw [List.filter_cons_of_neg (by simp [hin]), List.foldl_cons, hstep]
            exact ih state hsize
  exact hfold (rs, false) rfl

theorem Passes.of_filter {cs : List Constraint} {rs rs' : Regions} {n : Nat}
    (h : Passes (cs.filter (·.isInside rs.size)) rs rs' n) : Passes cs rs rs' n := by
  generalize hinside : cs.filter (·.isInside rs.size) = inside at h
  induction h with
  | last hpass => exact .last (by rw [← pass_filter, hinside, hpass])
  | @next rs rs₁ rs' n hpass _ ih =>
      have hnext : pass cs rs = (rs₁, true) := by rw [← pass_filter, hinside, hpass]
      have hsize : rs₁.size = rs.size := by
        have hkept := size_pass cs rs
        rwa [hnext] at hkept
      exact .next hnext (ih (by rw [hsize, hinside]))

theorem solve_filter (cs : List Constraint) (rs : Regions) :
    rs.solve (cs.filter (·.isInside rs.size)) = rs.solve cs :=
  (solve_passes _ rs).of_filter.unique (solve_passes cs rs)

/-! ### Growth -/

/-- Each region is still there, with what it was made with and at least the points that it had. -/
def Grows (rs rs' : Regions) : Prop :=
  ∀ i region, rs.get? i = some region →
    ∃ points, rs'.get? i = some { region with points } ∧ ∀ p ∈ region.points, p ∈ points

namespace Grows

theorem refl (rs : Regions) : rs.Grows rs := fun _ region h => ⟨region.points, h, fun _ hp => hp⟩

theorem trans {rs rs₁ rs₂ : Regions} (h : rs.Grows rs₁) (h' : rs₁.Grows rs₂) : rs.Grows rs₂ := by
  intro i region hi
  obtain ⟨points, hget, hsub⟩ := h i region hi
  obtain ⟨points', hget', hsub'⟩ := h' i _ hget
  exact ⟨points', hget', fun p hp => hsub' p (hsub p hp)⟩

/-- Regions that differ in points only, and have all that they had. -/
theorem of_bare {rs rs' : Regions} (hbare : rs'.bare = rs.bare)
    (hpoints : ∀ r p, p ∈ rs.points r → p ∈ rs'.points r) : rs.Grows rs' := by
  intro i region hi
  have hsame : (rs'.get? i).map (fun region => { region with points := ∅ }) =
      (rs.get? i).map (fun region : Region => { region with points := ∅ }) := by
    simpa only [get?_bare] using congrArg (fun rs => rs.get? i) hbare
  rw [hi] at hsame
  obtain ⟨region', hi', hregion⟩ := Option.map_eq_some_iff.mp hsame
  have hpoint := hpoints i
  simp only [points, hi, hi', Option.map_some, Option.getD_some] at hpoint
  obtain ⟨id, kind, name, site, points'⟩ := region'
  simp only [Region.mk.injEq, and_true] at hregion
  obtain ⟨rfl, rfl, rfl, rfl⟩ := hregion
  exact ⟨points', hi', hpoint⟩

theorem apply (c : Constraint) (rs : Regions) : rs.Grows (c.apply rs).1 :=
  of_bare (c.bare_apply rs) fun _ _ hp => Constraint.mem_points_apply.mpr (.inl hp)

theorem solve (cs : List Constraint) (rs : Regions) : rs.Grows (rs.solve cs).1 :=
  of_bare (bare_solve cs rs) fun _ _ hp => mem_points_solve_of_mem hp

theorem fresh (rs : Regions) (kind : RegionKind) (name : Option String) (site : Option Site) :
    rs.Grows (rs.fresh kind name site) := by
  intro i region hi
  refine ⟨region.points, ?_, fun p hp => hp⟩
  exact (List.getElem?_append_left (List.getElem?_eq_some_iff.mp hi).1).trans hi

end Grows

/-- Each region has its position for its id. -/
def Numbered (rs : Regions) : Prop := ∀ i region, rs.get? i = some region → region.id = i

namespace Numbered

theorem initial : initial.Numbered := by
  intro i region h
  obtain ⟨rfl, rfl⟩ : i = 0 ∧ region = ⟨static, .universal, "static", none, ∅⟩ := by
    simpa [Regions.initial, get?, List.getElem?_singleton, eq_comm] using h
  rfl

/-- Ids do not depend on points. -/
theorem of_bare {rs rs' : Regions} (h : rs.Numbered) (hbare : rs'.bare = rs.bare) :
    rs'.Numbered := by
  intro i region' hi'
  have hids := congrArg (fun rs => (rs.get? i).map Region.id) hbare
  simp only [get?_bare, Option.map_map] at hids
  change (rs'.get? i).map Region.id = (rs.get? i).map Region.id at hids
  rw [hi', Option.map_some, eq_comm] at hids
  obtain ⟨region, hi, hid⟩ := Option.map_eq_some_iff.mp hids
  rw [← hid]
  exact h i region hi

theorem fresh {rs : Regions} (h : rs.Numbered) (kind : RegionKind) (name : Option String)
    (site : Option Site) : (rs.fresh kind name site).Numbered := by
  intro i region hi
  rcases getElem?_concat_eq_some.mp hi with hold | ⟨rfl, rfl⟩
  · exact h i region hold
  · rfl

end Numbered

/-! ### Calls -/

/-- A call that may change regions. -/
inductive Call where
  | fresh (kind : RegionKind) (name : Option String) (site : Option Site)
  | addPoint (r : RegionId) (p : NodeId)
  | union (longer shorter : RegionId)
  | apply (c : Constraint)
  | solve (cs : List Constraint)

/-- What a call answers: the region that it made, whether a region changed, or the number of
passes. -/
inductive Answer where
  | made (r : RegionId)
  | changed (changed : Bool)
  | passes (count : Nat)

namespace Call

def run (rs : Regions) : Call → Regions × Answer
  | fresh kind name site => (rs.fresh kind name site, .made rs.size)
  | addPoint r p => (rs.addPoint r p).map id .changed
  | union longer shorter => (rs.union longer shorter).map id .changed
  | apply c => (c.apply rs).map id .changed
  | solve cs => (rs.solve cs).map id .passes

/-- The regions that a call names by itself, and not in constraints to be solved. -/
def named : Call → List RegionId
  | addPoint r _ => [r]
  | union longer shorter => [longer, shorter]
  | apply c => c.named
  | _ => []

/-- The constraint that a call applies once. -/
def constraint? : Call → Option Constraint
  | addPoint r p => some (.live r p)
  | union longer shorter => some (.outlives longer shorter 0)
  | apply c => some c
  | _ => none

theorem run_of_constraint? {call : Call} {c : Constraint} (h : call.constraint? = some c)
    (rs : Regions) :
    call.run rs = ((c.apply rs).1, .changed (c.apply rs).2) ∧ call.named = c.named := by
  cases call <;> cases h <;> exact ⟨rfl, rfl⟩

theorem grows_run (rs : Regions) (call : Call) : rs.Grows (call.run rs).1 := by
  cases h : call.constraint? with
  | some c =>
      rw [(run_of_constraint? h rs).1]
      exact .apply c rs
  | none =>
      cases call with
      | fresh kind name site => exact .fresh rs kind name site
      | solve cs => exact .solve cs rs
      | _ => cases h

theorem numbered_run {rs : Regions} (h : rs.Numbered) (call : Call) :
    (call.run rs).1.Numbered := by
  cases hc : call.constraint? with
  | some c =>
      rw [(run_of_constraint? hc rs).1]
      exact h.of_bare (c.bare_apply rs)
  | none =>
      cases call with
      | fresh kind name site => exact h.fresh kind name site
      | solve cs => exact h.of_bare (bare_solve cs rs)
      | _ => cases hc

end Call

/-- The regions after calls in order. -/
def after (calls : List Call) : Regions := calls.foldl (fun rs call => (call.run rs).1) initial

theorem numbered_after (calls : List Call) : (after calls).Numbered := by
  induction calls using List.reverseRecOn with
  | nil => exact .initial
  | append_singleton calls call ih =>
      have hlast : after (calls ++ [call]) = (call.run (after calls)).1 := by simp [after]
      rw [hlast]
      exact call.numbered_run ih

theorem grows_after (calls later : List Call) : (after calls).Grows (after (calls ++ later)) := by
  induction later using List.reverseRecOn with
  | nil => simpa using Grows.refl (after calls)
  | append_singleton later call ih =>
      have hlast : after (calls ++ (later ++ [call])) = (call.run (after (calls ++ later))).1 := by
        simp [after]
      rw [hlast]
      exact ih.trans (call.grows_run _)

/-- After any calls, region `0` is `'static` and region `i` has id `i`. Whatever is called later,
every region keeps its position, id, kind, name and site and loses no point. A new region comes
last, under the id that is answered. A call that may add points answers whether the points of a
region are others than before. Naming a region that does not exist changes nothing; constraints that
name one can be left out before solving. -/
theorem after_call_grows (calls : List Call) (call : Call) :
    (∃ points, (after calls).get? static =
      some ⟨static, .universal, "static", none, points⟩) ∧
    (∀ i region, (after calls).get? i = some region → region.id = i) ∧
    (∀ later, (after calls).Grows (after (calls ++ later))) ∧
    (∀ r, (call.run (after calls)).2 = .made r → r = (after calls).size ∧
      ∃ kind name site, call = .fresh kind name site ∧ (call.run (after calls)).1.toList =
        (after calls).toList ++ [⟨r, kind, name.getD (toString r), site, ∅⟩]) ∧
    (∀ changed, (call.run (after calls)).2 = .changed changed →
      (changed = true ↔ ∃ r, (call.run (after calls)).1.points r ≠ (after calls).points r)) ∧
    (∀ r ∈ call.named, (after calls).size ≤ r → (call.run (after calls)).1 = after calls) ∧
    ∀ cs, (Call.solve cs).run (after calls) =
      (Call.solve (cs.filter (·.isInside (after calls).size))).run (after calls) := by
  have hinitial : initial.get? static = some ⟨static, .universal, "static", none, ∅⟩ := rfl
  obtain ⟨points, hstatic, -⟩ := grows_after [] calls static _ hinitial
  refine ⟨⟨points, hstatic⟩, numbered_after calls, grows_after calls, ?_, ?_, ?_, ?_⟩
  · intro r hr
    cases call with
    | fresh kind name site =>
        cases hr
        exact ⟨rfl, kind, name, site, rfl, rfl⟩
    | _ => cases hr
  · intro changed hchanged
    cases h : call.constraint? with
    | some c =>
        obtain ⟨hrun, -⟩ := Call.run_of_constraint? h (after calls)
        rw [hrun] at hchanged ⊢
        cases hchanged
        exact Constraint.changed_iff
    | none => cases call <;> cases h <;> cases hchanged
  · intro r hr hsize
    cases h : call.constraint? with
    | some c =>
        obtain ⟨hrun, hnamed⟩ := Call.run_of_constraint? h (after calls)
        rw [hrun, Constraint.apply_of_holdsIn (Constraint.holdsIn_of_size_le (hnamed ▸ hr) hsize)]
    | none => cases call <;> cases h <;> cases hr
  · intro cs
    rw [Call.run, Call.run, solve_filter]

end Regions

end LoanScope
