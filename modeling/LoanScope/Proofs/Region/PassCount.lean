import LoanScope.Proofs.Region.Least

/-! How many passes it takes to solve regions. Points do not act on each other, so a pass that gives
a point to no region leaves that point where it is for good. The point that is added last is
therefore added in every pass but the final one, each time to a region that did not have it. -/

namespace LoanScope

/-! ### One point at a time -/

/-- Regions that agree about a point. -/
structure Regions.AlikeAt (p : Nat) (rs rs' : Regions) : Prop where
  size_eq : rs'.size = rs.size
  mem_iff : ∀ r, p ∈ rs'.points r ↔ p ∈ rs.points r

namespace Regions.AlikeAt

variable {p : Nat} {rs rs₁ rs₂ : Regions}

theorem refl (p : Nat) (rs : Regions) : rs.AlikeAt p rs := ⟨rfl, fun _ => Iff.rfl⟩

theorem symm (h : rs.AlikeAt p rs₁) : rs₁.AlikeAt p rs :=
  ⟨h.size_eq.symm, fun r => (h.mem_iff r).symm⟩

theorem trans (h : rs.AlikeAt p rs₁) (h' : rs₁.AlikeAt p rs₂) : rs.AlikeAt p rs₂ :=
  ⟨h'.size_eq.trans h.size_eq, fun r => (h'.mem_iff r).trans (h.mem_iff r)⟩

end Regions.AlikeAt

/-- The region has the point if the constraint demands it. -/
def Constraint.HoldsAt (p : Nat) (rs : Regions) (c : Constraint) : Prop :=
  c.region < rs.size → c.Demands rs p → p ∈ rs.points c.region

namespace Constraint.HoldsAt

variable {p : Nat} {rs rs' : Regions} {c : Constraint}

theorem congr (h : c.HoldsAt p rs) (halike : rs.AlikeAt p rs') : c.HoldsAt p rs' := by
  intro hlt hdemand
  have hdemand' : c.Demands rs p := by
    cases c with
    | outlives longer shorter q => exact (halike.mem_iff shorter).mp hdemand
    | live r q => exact hdemand
  rw [halike.mem_iff]
  exact h (halike.size_eq ▸ hlt) hdemand'

theorem apply (h : c.HoldsAt p rs) : rs.AlikeAt p (c.apply rs).1 := by
  refine ⟨c.size_apply rs, fun r => ?_⟩
  rw [mem_points_apply]
  constructor
  · rintro (hold | ⟨rfl, hlt, hdemand⟩)
    · exact hold
    · exact h hlt hdemand
  · exact .inl

end Constraint.HoldsAt

namespace Regions

variable {cs : List Constraint} {rs rs' : Regions} {p n : Nat}

/-- A point that every constraint is content with stays where it is. -/
theorem pass_alikeAt (h : ∀ c ∈ cs, c.HoldsAt p rs) : rs.AlikeAt p (pass cs rs).1 := by
  apply pass_induction (P := fun rs' => rs.AlikeAt p rs')
  · exact .refl p rs
  · intro c hc rs' halike
    exact halike.trans ((h c hc).congr halike).apply

/-- If a pass gives a point to no region, then every constraint is content with the point. -/
theorem holdsAt_of_foldl_passStep (changed : Bool)
    (h : ∀ r, p ∈ (cs.foldl passStep (rs, changed)).1.points r → p ∈ rs.points r) :
    ∀ c ∈ cs, c.HoldsAt p rs := by
  induction cs generalizing rs changed with
  | nil => simp
  | cons c rest ih =>
      have hgrows := (foldl_passStep_grows rest (c.apply rs).1 (changed || (c.apply rs).2)).2.1
      have hback : ∀ r, p ∈ (c.apply rs).1.points r → p ∈ rs.points r :=
        fun r hr => h r (hgrows r p hr)
      have hkept : ∀ r, p ∈ rs.points r → p ∈ (c.apply rs).1.points r :=
        fun r hr => Constraint.mem_points_apply.mpr (.inl hr)
      have halike : rs.AlikeAt p (c.apply rs).1 := ⟨c.size_apply rs, fun r => ⟨hback r, hkept r⟩⟩
      rw [List.forall_mem_cons]
      constructor
      · intro hlt hdemand
        exact hback _ (Constraint.mem_points_apply.mpr (.inr ⟨rfl, hlt, hdemand⟩))
      · intro c' hc'
        have hrest : c'.HoldsAt p (c.apply rs).1 := ih _ (fun r hr => hkept r (h r hr)) c' hc'
        exact hrest.congr halike.symm

/-! ### The regions that have a point -/

/-- The regions that have the point. -/
def having (rs : Regions) (p : Nat) : Finset Nat := {r ∈ Finset.range rs.size | p ∈ rs.points r}

theorem mem_having {r : Nat} : r ∈ rs.having p ↔ p ∈ rs.points r := by
  rw [having, Finset.mem_filter, Finset.mem_range]
  exact ⟨And.right, fun h => ⟨lt_size_of_mem_points h, h⟩⟩

theorem card_having_le (rs : Regions) (p : Nat) : (rs.having p).card ≤ rs.size := by
  calc (rs.having p).card
      ≤ (Finset.range rs.size).card := Finset.card_filter_le _ _
    _ = rs.size := Finset.card_range _

theorem AlikeAt.having_eq (h : rs.AlikeAt p rs') : rs'.having p = rs.having p := by
  ext r
  rw [mem_having, mem_having, h.mem_iff]

theorem having_subset_pass (cs : List Constraint) (rs : Regions) (p : Nat) :
    rs.having p ⊆ (pass cs rs).1.having p := by
  intro r hr
  exact mem_having.mpr (mem_points_pass (mem_having.mp hr))

/-- A pass either gives a point to one more region, or every constraint is content with the
point. -/
theorem card_having_lt_pass (h : ¬ ∀ c ∈ cs, c.HoldsAt p rs) :
    (rs.having p).card < ((pass cs rs).1.having p).card := by
  apply Finset.card_lt_card
  rw [Finset.ssubset_iff_of_subset (having_subset_pass cs rs p)]
  by_contra hnone
  apply h
  apply holdsAt_of_foldl_passStep false
  intro r hr
  by_contra hnew
  exact hnone ⟨r, mem_having.mpr hr, fun hold => hnew (mem_having.mp hold)⟩

/-! ### Counting -/

/-- Once every constraint is content with a point, no pass moves it. -/
theorem Passes.alikeAt (h : Passes cs rs rs' n) (hp : ∀ c ∈ cs, c.HoldsAt p rs) :
    rs.AlikeAt p rs' := by
  induction h with
  | last hpass =>
      have halike := pass_alikeAt hp
      rwa [hpass] at halike
  | next hpass _ ih =>
      have halike := pass_alikeAt hp
      rw [hpass] at halike
      exact halike.trans (ih fun c hc => (hp c hc).congr halike)

theorem Passes.having_subset (h : Passes cs rs rs' n) (p : Nat) : rs.having p ⊆ rs'.having p := by
  induction h with
  | @last rs _ hpass =>
      have hsub := having_subset_pass cs rs p
      rwa [hpass] at hsub
  | @next rs _ _ _ hpass _ ih =>
      have hsub := having_subset_pass cs rs p
      rw [hpass] at hsub
      exact hsub.trans ih

/-- A pass that changes something finds a constraint that is not content with some point. -/
theorem exists_not_holdsAt (h : (pass cs rs).2 = true) : ∃ p, ¬ ∀ c ∈ cs, c.HoldsAt p rs := by
  by_contra hall
  have hholds : ∀ c ∈ cs, c.HoldsIn rs := by
    intro c hc hlt p hdemand
    by_contra hmissing
    exact hall ⟨p, fun hp => hmissing (hp c hc hlt hdemand)⟩
  rw [pass_of_holdsIn hholds] at h
  cases h

/-- If there is more than one pass, some point gets into a new region in each of them but the
last. -/
theorem Passes.exists_point (h : Passes cs rs rs' n) :
    n ≤ 1 ∨ ∃ p, (rs.having p).card + n ≤ (rs'.having p).card + 1 := by
  induction h with
  | last => exact .inl (Nat.le_refl 1)
  | @next rs rs₁ rs' n hpass hrest ih =>
      right
      have hrises : ∀ p, (¬ ∀ c ∈ cs, c.HoldsAt p rs) →
          (rs.having p).card < (rs₁.having p).card := by
        intro p hp
        have hlt := card_having_lt_pass hp
        rwa [hpass] at hlt
      by_cases hn : n ≤ 1
      · -- The first pass is the only one that changes anything, and any point that it adds will do.
        have hchanged : (pass cs rs).2 = true := by rw [hpass]
        obtain ⟨p, hp⟩ := exists_not_holdsAt hchanged
        have hlt := hrises p hp
        have hle := Finset.card_le_card (hrest.having_subset p)
        exact ⟨p, by omega⟩
      · obtain ⟨p, hp⟩ := ih.resolve_left hn
        have hmoved : ¬ ∀ c ∈ cs, c.HoldsAt p rs := by
          -- Else the first pass would have left the point alone, and so would all the others.
          intro hcontent
          have hsame := ((Passes.next hpass hrest).alikeAt hcontent).having_eq
          have hfirst := (pass_alikeAt hcontent).having_eq
          rw [hpass] at hfirst
          rw [hsame, hfirst] at hp
          omega
        have hlt := hrises p hmoved
        exact ⟨p, by omega⟩

theorem passes_solve_le (cs : List Constraint) (rs : Regions) : (rs.solve cs).2 ≤ rs.size + 1 := by
  rcases (solve_passes cs rs).exists_point with hone | ⟨p, hp⟩
  · omega
  · have hle := card_having_le (rs.solve cs).1 p
    rw [(solve_holdsIn cs rs).1] at hle
    omega

/-- Solving takes a single pass exactly if there is nothing to do. -/
theorem passes_solve_eq_one : (rs.solve cs).2 = 1 ↔ ∀ c ∈ cs, c.HoldsIn rs := by
  constructor
  · intro hone
    have hpasses := solve_passes cs rs
    rw [hone] at hpasses
    by_contra hnot
    have hchanged := (pass_of_not_holdsIn hnot).1
    cases hpasses with
    | last hpass =>
        rw [hpass] at hchanged
        cases hchanged
    | next _ hrest => cases hrest
  · intro hall
    rw [solve_of_holdsIn hall]

/-- What the constraints ask of regions that exist. -/
theorem forall_holdsIn_iff :
    (∀ c ∈ cs, c.HoldsIn rs) ↔
      (∀ longer shorter q, .outlives longer shorter q ∈ cs → longer < rs.size → shorter < rs.size →
        ∀ p ∈ rs.points shorter, p ∈ rs.points longer) ∧
      ∀ r p, .live r p ∈ cs → r < rs.size → p ∈ rs.points r := by
  constructor
  · intro h
    constructor
    · intro longer shorter q hc hlonger _ p hp
      exact h _ hc hlonger p hp
    · intro r p hc hr
      exact h _ hc hr p rfl
  · rintro ⟨houtlives, hlive⟩ c hc
    cases c with
    | outlives longer shorter q =>
        intro hlonger p hp
        exact houtlives longer shorter q hc hlonger (lt_size_of_mem_points hp) p hp
    | live r q =>
        rintro hr p rfl
        exact hlive r p hc hr

/-- Solving makes at most one pass more than there are regions, however many points and constraints
there are. It makes a single pass exactly if the regions that exist have all that the constraints
ask of them, as they do after solving, so that solving again with the same constraints in any order
makes one pass and changes nothing. -/
theorem solve_passCount (cs : List Constraint) (rs : Regions) :
    Passes cs rs (rs.solve cs).1 (rs.solve cs).2 ∧
    (rs.solve cs).2 ≤ rs.size + 1 ∧
    ((rs.solve cs).2 = 1 ↔
      (∀ longer shorter q, .outlives longer shorter q ∈ cs → longer < rs.size → shorter < rs.size →
        ∀ p ∈ rs.points shorter, p ∈ rs.points longer) ∧
      ∀ r p, .live r p ∈ cs → r < rs.size → p ∈ rs.points r) ∧
    ∀ cs', cs'.Perm cs → (rs.solve cs).1.solve cs' = ((rs.solve cs).1, 1) := by
  refine ⟨solve_passes cs rs, passes_solve_le cs rs, ?_, ?_⟩
  · rw [passes_solve_eq_one, forall_holdsIn_iff]
  · intro cs' hperm
    apply solve_of_holdsIn
    intro c hc
    exact (solve_holdsIn cs rs).2 c (hperm.mem_iff.mp hc)

/-- The bound is met: a point walks up a chain of constraints that are listed from its far end. -/
example :
    let rs := (Regions.initial.extend (.decl 0) 2)
    (rs.solve [.outlives 0 1 0, .outlives 1 2 0, .live 2 5]).2 = rs.size + 1 := by decide

end Regions

end LoanScope
