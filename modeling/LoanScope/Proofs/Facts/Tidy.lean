import LoanScope.Proofs.Facts.Outlives
import Mathlib.Data.List.Induction

/-! The constraints of a function as a list. Tidying drops what would be there twice and what asks
nothing, which makes no difference to the regions that are inferred, and the constraints of nodes
come in the order of the nodes. -/

namespace LoanScope

/-! ### Tidying -/

namespace Constraint

theorem isIdle_iff {c : Constraint} : c.isIdle = true ↔ ∃ r p, c = .outlives r r p := by
  cases c with
  | outlives longer shorter p => simp [isIdle, eq_comm]
  | live r p => simp [isIdle]

/-- A further constraint is kept if it asks something and is new. -/
theorem tidy_concat (cs : List Constraint) (c : Constraint) :
    tidy (cs ++ [c]) = if c.isIdle ∨ c ∈ cs then tidy cs else tidy cs ++ [c] := by
  simp only [tidy, List.filter_append, List.eraseDups_append]
  cases hidle : c.isIdle with
  | true => simp [hidle]
  | false =>
      by_cases hmem : c ∈ cs
      · simp [hidle, hmem, List.removeAll]
      · simp [hidle, hmem, List.removeAll, List.eraseDups_cons]

theorem nodup_tidy (cs : List Constraint) : (tidy cs).Nodup := by
  induction cs using List.reverseRecOn with
  | nil => exact List.nodup_nil
  | append_singleton cs c ih =>
      rw [tidy_concat]
      split
      · exact ih
      · rename_i hnew
        have hnot : c ∉ tidy cs := fun hmem => hnew (.inr (mem_tidy.mp hmem).1)
        refine List.nodup_append.mpr ⟨ih, List.nodup_singleton c, ?_⟩
        rintro d hd e he rfl
        exact hnot (List.mem_singleton.mp he ▸ hd)

/-- Later constraints do not change what is kept of earlier ones. -/
theorem exists_tidy_append (cs more : List Constraint) :
    ∃ rest, tidy (cs ++ more) = tidy cs ++ rest ∧ rest.Sublist more := by
  induction more using List.reverseRecOn with
  | nil => exact ⟨[], by simp, .slnil⟩
  | append_singleton more c ih =>
      obtain ⟨rest, hrest, hsub⟩ := ih
      rw [← List.append_assoc, tidy_concat, hrest]
      split
      · exact ⟨rest, rfl, hsub.trans (List.sublist_append_left more [c])⟩
      · exact ⟨rest ++ [c], List.append_assoc _ _ _, hsub.append_right [c]⟩

theorem tidy_sublist (cs : List Constraint) : (tidy cs).Sublist cs := by
  obtain ⟨rest, hrest, hsub⟩ := exists_tidy_append [] cs
  rw [List.nil_append] at hrest
  exact hrest ▸ hsub

theorem tidy_eq_self {cs : List Constraint} (hnodup : cs.Nodup)
    (hidle : ∀ c ∈ cs, c.isIdle = false) :
    tidy cs = cs := by
  induction cs using List.reverseRecOn with
  | nil => rfl
  | append_singleton cs c ih =>
      obtain ⟨hnodup, -, hnew⟩ := List.nodup_append.mp hnodup
      have hkept : ¬(c.isIdle = true ∨ c ∈ cs) := by
        rintro (hc | hc)
        · simp [hidle c (by simp)] at hc
        · exact hnew c hc c (List.mem_singleton_self c) rfl
      rw [tidy_concat, if_neg hkept, ih hnodup fun d hd => hidle d (List.mem_append_left _ hd)]

end Constraint

/-- What is due by all constraints is due by those that are kept: a step from a region to itself
leads nowhere. -/
theorem Regions.due_tidy {cs : List Constraint} {rs : Regions} {r : RegionId} {p : Nat} :
    rs.Due (Constraint.tidy cs) r p ↔ rs.Due cs r p := by
  refine ⟨.mono fun c hc => (Constraint.mem_tidy.mp hc).1, ?_⟩
  rintro ⟨s, hchain, hs, hp⟩
  refine ⟨s, ?_, hs, hp.imp_right fun hlive => Constraint.mem_tidy.mpr ⟨hlive, rfl⟩⟩
  refine Relation.reflTransGen_closed ?_ r s hchain
  rintro a b ⟨ha, hb, q, hmem⟩
  by_cases heq : a = b
  · rw [heq]
  · exact .single ⟨ha, hb, q, Constraint.mem_tidy.mpr ⟨hmem, by simp [Constraint.isIdle, heq]⟩⟩

theorem Regions.solve_tidy (cs : List Constraint) (rs : Regions) :
    (rs.solve (Constraint.tidy cs)).1 = (rs.solve cs).1 := by
  refine eq_of_bare ((bare_solve _ rs).trans (bare_solve cs rs).symm) fun r p => ?_
  rw [mem_points_solve, mem_points_solve, due_tidy]

/-! ### The order of constraints -/

namespace Facts

variable {facts : Facts}

theorem Filed.nodesConstraints_ascending (hfiled : facts.Filed) {n : NodeId}
    {list : List (Node × NodeFacts)}
    (hlist : ∀ m node here, list[m]? = some (node, here) → facts.nodes[n + m]? = some here)
    {cs : List Constraint} (h : facts.nodesConstraints n list = .ok cs) :
    cs.Pairwise fun a b => a.point ≤ b.point := by
  induction list generalizing n cs with
  | nil =>
      cases h
      exact .nil
  | cons head rest ih =>
      obtain ⟨node, here⟩ := head
      obtain ⟨first, hfirst, hmore⟩ := bind_eq_ok.mp h
      obtain ⟨later, hlater, hend⟩ := bind_eq_ok.mp hmore
      cases hend
      have hrest : ∀ m node here, rest[m]? = some (node, here) →
          facts.nodes[n + 1 + m]? = some here := by
        intro m node here hm
        rw [Nat.add_right_comm]
        exact hlist (m + 1) node here hm
      have hpoint : ∀ c ∈ first, c.point = n :=
        fun c hc => hfiled.point_eq (hlist 0 node here rfl) hfirst hc
      refine List.pairwise_append.mpr ⟨?_, ih hrest hlater, ?_⟩
      · refine List.pairwise_of_forall_mem_list fun a ha b hb => ?_
        rw [hpoint a ha, hpoint b hb]
      · intro a ha b hb
        obtain ⟨m, node', here', cs', hm, hcs', hmem⟩ :=
          exists_node_of_mem_nodesConstraints hlater hb
        rw [hpoint a ha, hfiled.point_eq (hrest m node' here' hm) hcs' hmem, Nat.add_assoc]
        exact Nat.le_add_right n _

theorem globalConstraints_nodup (facts : Facts) (config : Config) (g : Graph) :
    (facts.globalConstraints config g).Nodup := by
  refine List.nodup_append.mpr ⟨?_, ?_, ?_⟩
  · split
    · exact List.nodup_range.map fun a b hab => by simpa using hab
    · exact List.nodup_nil
  · refine List.nodup_range.filterMap fun r r' c hc hc' => ?_
    simp only [Option.mem_def, Option.ite_none_right_eq_some, Option.some.injEq] at hc hc'
    have hsame := hc.2.trans hc'.2.symm
    simpa using hsame
  · intro c hc d hd heq
    subst heq
    obtain ⟨r, -, hr⟩ := List.mem_filterMap.mp hd
    simp only [Option.ite_none_right_eq_some, Option.some.injEq] at hr
    rw [← hr.2] at hc
    split at hc <;> simp at hc

/-- The constraints of the whole function are kept as they are, and come before those of its
nodes. -/
theorem Filed.exists_constraints_eq (hfiled : facts.Filed) {config : Config} {f : Function}
    (hglobal : ∀ c ∈ facts.globalConstraints config f.graph, c.isIdle = false)
    {cs : List Constraint} (h : facts.constraints config f = .ok cs) :
    ∃ rest, cs = facts.globalConstraints config f.graph ++ rest ∧
      rest.Pairwise fun a b => a.point ≤ b.point := by
  obtain ⟨all, hall, hend⟩ := bind_eq_ok.mp h
  obtain ⟨perNode, hper, hlast⟩ := bind_eq_ok.mp hall
  cases hlast
  cases hend
  have hzip : ∀ m node here, (f.nodes.zip facts.nodes)[m]? = some (node, here) →
      facts.nodes[0 + m]? = some here := by
    intro m node here hm
    rw [Nat.zero_add]
    exact (List.getElem?_zip_eq_some.mp hm).2
  obtain ⟨rest, hrest, hsub⟩ :=
    Constraint.exists_tidy_append (facts.globalConstraints config f.graph) perNode
  rw [Constraint.tidy_eq_self (facts.globalConstraints_nodup config f.graph) hglobal] at hrest
  exact ⟨rest, hrest, (hfiled.nodesConstraints_ascending hzip hper).sublist hsub⟩

end Facts

end LoanScope
