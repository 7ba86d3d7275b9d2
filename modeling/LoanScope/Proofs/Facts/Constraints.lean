import LoanScope.Facts.Constraints
import LoanScope.Proofs.Facts.Declarations
import LoanScope.Proofs.Region.Solve

/-! Which constraints the facts of a function put on its regions, and what follows for regions that
satisfy them: a live reference keeps its region alive, and a region outlives those that an
assignment relates it to. -/

namespace LoanScope

theorem Constraint.mem_tidy {cs : List Constraint} {c : Constraint} :
    c ∈ Constraint.tidy cs ↔ c ∈ cs ∧ c.isIdle = false := by
  simp [tidy]

namespace Facts

theorem mem_nodesConstraints {facts : Facts} {n : NodeId} {list : List (Node × NodeFacts)}
    {cs : List Constraint} (h : facts.nodesConstraints n list = .ok cs) {m : Nat} {node : Node}
    {here : NodeFacts} (hm : list[m]? = some (node, here)) :
    ∃ first, facts.nodeConstraints (n + m) node.liveIn here = .ok first ∧ ∀ c ∈ first, c ∈ cs := by
  induction list generalizing n m cs with
  | nil => simp at hm
  | cons head rest ih =>
      obtain ⟨first, hfirst, hmore⟩ := bind_eq_ok.mp h
      obtain ⟨later, hlater, hend⟩ := bind_eq_ok.mp hmore
      cases hend
      cases m with
      | zero =>
          cases hm
          exact ⟨first, hfirst, fun c hc => List.mem_append_left _ hc⟩
      | succ m =>
          obtain ⟨cs', hcs', hsub⟩ := ih hlater hm
          rw [Nat.succ_add_eq_add_succ] at hcs'
          exact ⟨cs', hcs', fun c hc => List.mem_append_right _ (hsub c hc)⟩

theorem exists_node_of_mem_nodesConstraints {facts : Facts} {n : NodeId}
    {list : List (Node × NodeFacts)} {cs : List Constraint}
    (h : facts.nodesConstraints n list = .ok cs) {c : Constraint} (hc : c ∈ cs) :
    ∃ m node here first, list[m]? = some (node, here) ∧
      facts.nodeConstraints (n + m) node.liveIn here = .ok first ∧ c ∈ first := by
  induction list generalizing n cs with
  | nil =>
      cases h
      simp at hc
  | cons head rest ih =>
      obtain ⟨node, here⟩ := head
      obtain ⟨first, hfirst, hmore⟩ := bind_eq_ok.mp h
      obtain ⟨later, hlater, hend⟩ := bind_eq_ok.mp hmore
      cases hend
      rcases List.mem_append.mp hc with hc | hc
      · exact ⟨0, node, here, first, rfl, hfirst, hc⟩
      · obtain ⟨m, node', here', cs', hm, hcs', hmem⟩ := ih hlater hc
        rw [Nat.succ_add_eq_add_succ] at hcs'
        exact ⟨m + 1, node', here', cs', hm, hcs', hmem⟩

/-- The constraints of a node are among those of the function, idle ones apart. -/
theorem mem_constraints {facts : Facts} {config : Config} {f : Function} {cs : List Constraint}
    (h : facts.constraints config f = .ok cs) {n : Nat} {node : Node} {here : NodeFacts}
    (hnode : f.nodes[n]? = some node) (hhere : facts.nodes[n]? = some here) :
    ∃ first, facts.nodeConstraints n node.liveIn here = .ok first ∧
      ∀ c ∈ first, c.isIdle = false → c ∈ cs := by
  obtain ⟨all, hall, hend⟩ := bind_eq_ok.mp h
  obtain ⟨perNode, hper, hlast⟩ := bind_eq_ok.mp hall
  cases hlast
  cases hend
  have hzip : (f.nodes.zip facts.nodes)[n]? = some (node, here) := by
    simp [List.getElem?_zip_eq_some, hnode, hhere]
  obtain ⟨first, hfirst, hsub⟩ := mem_nodesConstraints hper hzip
  rw [Nat.zero_add] at hfirst
  refine ⟨first, hfirst, fun c hc hidle => ?_⟩
  exact Constraint.mem_tidy.mpr ⟨List.mem_append_right _ (hsub c hc), hidle⟩

theorem live_mem_constraints {facts : Facts} {config : Config} {f : Function} {cs : List Constraint}
    (h : facts.constraints config f = .ok cs) {n : Nat} {node : Node} {here : NodeFacts}
    (hnode : f.nodes[n]? = some node) (hhere : facts.nodes[n]? = some here) {e : Variable × Ty}
    (he : e ∈ facts.declared.entries) (hname : e.1.name ∈ node.liveIn) {r : RegionId}
    (hr : r ∈ e.2.regions) : Constraint.live r n ∈ cs := by
  obtain ⟨first, hfirst, hsub⟩ := mem_constraints h hnode hhere
  obtain ⟨reborrows, -, hend⟩ := bind_eq_ok.mp hfirst
  cases hend
  refine hsub _ ?_ rfl
  simp only [List.append_assoc, List.mem_append, List.mem_map, IdSet.mem_toList, liveRegions,
    IdSet.mem_ofList, List.mem_flatMap, List.mem_filter, decide_eq_true_eq]
  exact .inl ⟨r, ⟨e, ⟨he, hname⟩, hr⟩, rfl⟩

theorem assignment_mem_constraints {facts : Facts} {config : Config} {f : Function}
    {cs : List Constraint} (h : facts.constraints config f = .ok cs) {n : Nat} {node : Node}
    {here : NodeFacts} (hnode : f.nodes[n]? = some node) (hhere : facts.nodes[n]? = some here)
    {a : Assignment} (ha : a ∈ here.assignments) {c : Constraint}
    (hc : c ∈ a.constraints facts.loans n) (hidle : c.isIdle = false) : c ∈ cs := by
  obtain ⟨first, hfirst, hsub⟩ := mem_constraints h hnode hhere
  obtain ⟨reborrows, -, hend⟩ := bind_eq_ok.mp hfirst
  cases hend
  refine hsub _ ?_ hidle
  simp only [List.append_assoc, List.mem_append, List.mem_flatMap]
  exact .inr (.inl ⟨a, ha, hc⟩)

end Facts

/-! ### Levels of reference -/

namespace Ty

/-- The type that is left below `i` levels of reference. -/
def below? : Ty → Nat → Option Ty
  | t, 0 => some t
  | builtin _ _, _ + 1 => none
  | ref _ pointee _ _ _, i + 1 => pointee.below? i

/-- The region of a level of reference, the outermost being level `0`. -/
def regionAt? (t : Ty) (i : Nat) : Option RegionId := (t.below? i).bind region?

/-- How a level of reference borrows. -/
def kindAt? (t : Ty) (i : Nat) : Option BorrowKind := (t.below? i).bind kind?

@[simp] theorem regionAt?_zero (t : Ty) : t.regionAt? 0 = t.region? := by
  cases t <;> rfl

@[simp] theorem kindAt?_zero (t : Ty) : t.kindAt? 0 = t.kind? := by
  cases t <;> rfl

@[simp] theorem regionAt?_builtin (kind : Builtin) (isConst : Bool) (i : Nat) :
    (builtin kind isConst).regionAt? i = none := by
  cases i <;> rfl

@[simp] theorem regionAt?_ref_succ (kind : BorrowKind) (pointee : Ty) (region : Option RegionId)
    (isConst isRestrict : Bool) (i : Nat) :
    (ref kind pointee region isConst isRestrict).regionAt? (i + 1) = pointee.regionAt? i := rfl

@[simp] theorem kindAt?_ref_succ (kind : BorrowKind) (pointee : Ty) (region : Option RegionId)
    (isConst isRestrict : Bool) (i : Nat) :
    (ref kind pointee region isConst isRestrict).kindAt? (i + 1) = pointee.kindAt? i := rfl

theorem mem_regions {t : Ty} {r : RegionId} : r ∈ t.regions ↔ ∃ i, t.regionAt? i = some r := by
  induction t with
  | builtin kind isConst => simp [regions]
  | ref kind pointee region isConst isRestrict ih =>
      rw [regions, List.mem_append, ih, iff_comm, ← Nat.or_exists_add_one]
      simp [region?]

theorem mem_relate_ref {point : NodeId} {invariant : Bool} {kind kind' : BorrowKind} {p q : Ty}
    {region region' : Option RegionId} {isConst isRestrict isConst' isRestrict' : Bool}
    {c : Constraint} :
    c ∈ (ref kind p region isConst isRestrict).relate point invariant
        (ref kind' q region' isConst' isRestrict') ↔
      (∃ r s, region = some r ∧ region' = some s ∧
        (c = .outlives r s point ∨ c = .outlives s r point ∧ invariant)) ∨
      c ∈ p.relate point (invariant || kind' = .mutable) q := by
  cases region with
  | none => simp [relate]
  | some r =>
      cases region' with
      | none => simp [relate]
      | some s => cases invariant <;> simp [relate, or_assoc]

/-- Related types have related regions level by level, in both directions from below a mutable
reference on. -/
theorem mem_relate {point : NodeId} {invariant : Bool} {sub sup : Ty} {c : Constraint} :
    c ∈ sub.relate point invariant sup ↔
      ∃ i r s, sub.regionAt? i = some r ∧ sup.regionAt? i = some s ∧
        (c = .outlives r s point ∨
          c = .outlives s r point ∧ (invariant ∨ ∃ j < i, sup.kindAt? j = some .mutable)) := by
  induction sub generalizing sup invariant with
  | builtin kind isConst => simp [relate]
  | ref kind pointee region isConst isRestrict ih =>
      cases sup with
      | builtin kind' isConst' => simp [relate]
      | ref kind' pointee' region' isConst' isRestrict' =>
          rw [mem_relate_ref, ih, iff_comm, ← Nat.or_exists_add_one]
          apply or_congr
          · simp [region?]
          · -- A mutable reference above a level of the pointee is this one or one of the pointee.
            simp only [regionAt?_ref_succ, Nat.exists_lt_succ_left, kindAt?_zero, kindAt?_ref_succ,
              kind?, Option.some.injEq, Bool.or_eq_true, decide_eq_true_eq, or_assoc]

end Ty

/-! ### Assignments -/

/-- The regions that an assignment relates, first the one that must contain the other. -/
inductive Assignment.Relates (loans : List Loan) : Assignment → RegionId → RegionId → Prop where
  | borrow {dest l loan t} (hloan : loans[l]? = some loan) (ht : dest.ty.region? = some t) :
      Relates loans ⟨dest, .borrow l⟩ loan.region t
  | lent {dest l loan i r s} (hloan : loans[l]? = some loan)
      (hr : loan.placeTy.regionAt? i = some r) (hs : dest.ty.regionAt? (i + 1) = some s) :
      Relates loans ⟨dest, .borrow l⟩ r s
  | lentBack {dest l loan i j r s} (hloan : loans[l]? = some loan)
      (hr : loan.placeTy.regionAt? i = some r)
      (hs : dest.ty.regionAt? (i + 1) = some s) (hj : j ≤ i)
      (hmutable : dest.ty.kindAt? j = some .mutable) : Relates loans ⟨dest, .borrow l⟩ s r
  | place {dest src i r s} (hr : src.ty.regionAt? i = some r) (hs : dest.ty.regionAt? i = some s) :
      Relates loans ⟨dest, .place src⟩ r s
  | placeBack {dest src i j r s} (hr : src.ty.regionAt? i = some r)
      (hs : dest.ty.regionAt? i = some s) (hj : j < i)
      (hmutable : dest.ty.kindAt? j = some .mutable) :
      Relates loans ⟨dest, .place src⟩ s r
  | call {dest args a r t} (ha : a ∈ args) (hr : r ∈ a.ty.regions) (ht : dest.ty.region? = some t) :
      Relates loans ⟨dest, .call args⟩ r t

theorem Assignment.mem_constraints_borrow {loans : List Loan} {point : NodeId} {dest : TypedPlace}
    {l : LoanId} {loan : Loan} {t : RegionId} (hloan : loans[l]? = some loan)
    (ht : dest.ty.region? = some t) {c : Constraint} :
    c ∈ Assignment.constraints loans point ⟨dest, .borrow l⟩ ↔
      c = .outlives loan.region t point ∨
      ∃ i r s, loan.placeTy.regionAt? i = some r ∧ dest.ty.regionAt? (i + 1) = some s ∧
        (c = .outlives r s point ∨
          c = .outlives s r point ∧ ∃ j ≤ i, dest.ty.kindAt? j = some .mutable) := by
  cases hty : dest.ty with
  | builtin kind isConst => simp [hty, Ty.region?] at ht
  | ref kind pointee region isConst isRestrict =>
      rw [hty] at ht
      simp only [constraints, hloan, hty, ht, Ty.pointee?, Ty.kind?, List.mem_cons, Ty.mem_relate,
        Ty.regionAt?_ref_succ, ← Nat.lt_succ_iff, Nat.exists_lt_succ_left, Ty.kindAt?_zero,
        Ty.kindAt?_ref_succ, decide_eq_true_eq]

theorem Assignment.Relates.mem_constraints {loans : List Loan} {a : Assignment} {r s t : RegionId}
    (h : a.Relates loans r s) (ht : a.dest.ty.region? = some t) (point : NodeId) :
    .outlives r s point ∈ a.constraints loans point := by
  cases h with
  | borrow hloan ht => exact (mem_constraints_borrow hloan ht).mpr (.inl rfl)
  | lent hloan hr hs =>
      exact (mem_constraints_borrow hloan ht).mpr (.inr ⟨_, _, _, hr, hs, .inl rfl⟩)
  | lentBack hloan hr hs hj hmutable =>
      exact (mem_constraints_borrow hloan ht).mpr
        (.inr ⟨_, _, _, hr, hs, .inr ⟨rfl, _, hj, hmutable⟩⟩)
  | place hr hs =>
      rw [constraints, ht]
      exact Ty.mem_relate.mpr ⟨_, _, _, hr, hs, .inl rfl⟩
  | placeBack hr hs hj hmutable =>
      rw [constraints, ht]
      exact Ty.mem_relate.mpr ⟨_, _, _, hr, hs, .inr ⟨rfl, .inr ⟨_, hj, hmutable⟩⟩⟩
  | call ha hr ht =>
      rw [constraints, ht]
      exact List.mem_flatMap.mpr ⟨_, ha, List.mem_map_of_mem hr⟩

theorem Assignment.relates_of_mem_constraints {loans : List Loan} {point : NodeId} {a : Assignment}
    {c : Constraint} (h : c ∈ a.constraints loans point) :
    ∃ r s, a.Relates loans r s ∧ c = .outlives r s point := by
  obtain ⟨dest, source⟩ := a
  cases ht : dest.ty.region? with
  | none => simp [constraints, ht] at h
  | some t =>
      cases source with
      | borrow l =>
          cases hloan : loans[l]? with
          | none => simp [constraints, ht, hloan] at h
          | some loan =>
              rcases (mem_constraints_borrow hloan ht).mp h with
                rfl | ⟨i, r, s, hr, hs, rfl | ⟨rfl, j, hj, hmutable⟩⟩
              · exact ⟨loan.region, t, .borrow hloan ht, rfl⟩
              · exact ⟨r, s, .lent hloan hr hs, rfl⟩
              · exact ⟨s, r, .lentBack hloan hr hs hj hmutable, rfl⟩
      | place src =>
          rw [constraints, ht] at h
          obtain ⟨i, r, s, hr, hs, rfl | ⟨rfl, hmutable⟩⟩ := Ty.mem_relate.mp h
          · exact ⟨r, s, .place hr hs, rfl⟩
          · obtain ⟨j, hj, hkind⟩ := hmutable.resolve_left Bool.false_ne_true
            exact ⟨s, r, .placeBack hr hs hj hkind, rfl⟩
      | call args =>
          rw [constraints, ht] at h
          obtain ⟨a, ha, hmem⟩ := List.mem_flatMap.mp h
          obtain ⟨r, hr, rfl⟩ := List.mem_map.mp hmem
          exact ⟨r, t, .call ha hr ht, rfl⟩

/-- A region outlives those that an assignment relates it to. -/
theorem Facts.points_of_relates {facts : Facts} {config : Config} {f : Function}
    {cs : List Constraint} (h : facts.constraints config f = .ok cs) {n : Nat} {node : Node}
    {here : NodeFacts} (hnode : f.nodes[n]? = some node) (hhere : facts.nodes[n]? = some here)
    {a : Assignment} (ha : a ∈ here.assignments) {r s t : RegionId}
    (ht : a.dest.ty.region? = some t) (hrelates : a.Relates facts.loans r s) {rs : Regions}
    (hrs : ∀ c ∈ cs, c.HoldsIn rs) (hr : r < rs.size) : ∀ p ∈ rs.points s, p ∈ rs.points r := by
  intro p hp
  by_cases heq : r = s
  · exact heq ▸ hp
  · have hmem := assignment_mem_constraints h hnode hhere ha (hrelates.mem_constraints ht n)
      (by simp [Constraint.isIdle, heq])
    exact hrs _ hmem hr p hp

end LoanScope
