import LoanScope.Proofs.Facts.Constraints
import LoanScope.Proofs.Facts.Typing

/-! Which region must contain which, by the facts of a function, and that its constraints say
exactly this. -/

namespace LoanScope

/-! ### Reborrows -/

namespace Place

theorem length_prefixes_le {p q : Place} (h : p ∈ q.prefixes) :
    p.prefixes.length ≤ q.prefixes.length := by
  induction q with
  | var v =>
      have hp : p = .var v := by simpa [prefixes] using h
      rw [hp]
  | deref q ih =>
      rcases List.mem_cons.mp h with rfl | h
      · exact Nat.le_refl _
      · exact Nat.le_succ_of_le (ih h)
  | member q field ih =>
      rcases List.mem_cons.mp h with rfl | h
      · exact Nat.le_refl _
      · exact Nat.le_succ_of_le (ih h)

/-- The place is reached by a dereference of `base`, a reference of type `t`, and after that through
no shared reference. -/
structure ReachedThrough (d : Declared) (p base : Place) (t : Ty) : Prop where
  isPrefix : base.deref ∈ p.prefixes
  typed : base.typeIn d = .ok t
  notShared : ∀ (q : Place) (u : Ty), q.deref ∈ p.prefixes → base.deref ∈ q.prefixes →
    q.typeIn d = .ok u →
    u.kind? ≠ some .shared

theorem reachedThrough_member {d : Declared} {p base : Place} {field : String} {t : Ty} :
    (p.member field).ReachedThrough d base t ↔ p.ReachedThrough d base t := by
  have hderef : ∀ q : Place, q.deref ∈ (p.member field).prefixes ↔ q.deref ∈ p.prefixes := by
    simp [prefixes]
  constructor
  · rintro ⟨hbase, hty, hno⟩
    exact ⟨(hderef base).mp hbase, hty, fun q u hq => hno q u ((hderef q).mpr hq)⟩
  · rintro ⟨hbase, hty, hno⟩
    exact ⟨(hderef base).mpr hbase, hty, fun q u hq => hno q u ((hderef q).mp hq)⟩

theorem reachedThrough_deref {d : Declared} {p base : Place} {t : Ty} :
    p.deref.ReachedThrough d base t ↔
      base = p ∧ p.typeIn d = .ok t ∨
      (∀ u, p.typeIn d = .ok u → u.kind? ≠ some .shared) ∧ p.ReachedThrough d base t := by
  constructor
  · rintro ⟨hbase, hty, hno⟩
    rcases List.mem_cons.mp hbase with heq | hbelow
    · cases heq
      exact .inl ⟨rfl, hty⟩
    · refine .inr ⟨fun u => hno p u List.mem_cons_self hbelow, hbelow, hty, ?_⟩
      intro q u hq
      exact hno q u (List.mem_cons_of_mem _ hq)
  · rintro (⟨rfl, hty⟩ | ⟨hhere, hbase, hty, hno⟩)
    · refine ⟨List.mem_cons_self, hty, ?_⟩
      -- No dereference that the place starts with is longer than the place itself.
      intro q u hq hlonger
      have hle := length_prefixes_le hq
      have hge := length_prefixes_le hlonger
      simp only [prefixes, List.length_cons] at hle hge
      omega
    · refine ⟨List.mem_cons_of_mem _ hbase, hty, ?_⟩
      intro q u hq hthrough
      rcases List.mem_cons.mp hq with heq | hbelow
      · cases heq
        exact hhere u
      · exact hno q u hbelow hthrough

end Place

namespace Loan

/-- The outermost dereference asks first, and the others only if it is not of a shared reference. -/
theorem reborrows_deref {d : Declared} {l : Loan} {p : Place} {cs : List Constraint}
    (h : l.reborrows d p.deref = .ok cs) :
    ∃ ty inner, p.typeIn d = .ok ty ∧
      cs = ty.region?.toList.map (.outlives · l.region l.origin) ++ inner ∧
      if ty.kind? = some .shared then inner = [] else l.reborrows d p = .ok inner := by
  rw [reborrows] at h
  obtain ⟨ty, hty, h⟩ := bind_eq_ok.mp h
  rw [Cause.locate_eq_ok] at hty
  by_cases hshared : ty.kind? = some .shared
  · rw [if_pos hshared] at h
    cases h
    exact ⟨ty, [], hty, by simp, by simp [hshared]⟩
  · rw [if_neg hshared] at h
    obtain ⟨inner, hinner, hend⟩ := bind_eq_ok.mp h
    cases hend
    exact ⟨ty, inner, hty, rfl, by simpa [hshared] using hinner⟩

/-- A loan is outlived by the references that its place is reached through. -/
theorem mem_reborrows {d : Declared} {l : Loan} {p : Place} {cs : List Constraint}
    (h : l.reborrows d p = .ok cs) {c : Constraint} :
    c ∈ cs ↔ ∃ base t r, p.ReachedThrough d base t ∧ t.region? = some r ∧
      c = .outlives r l.region l.origin := by
  induction p generalizing cs with
  | var v =>
      cases h
      simp only [List.not_mem_nil, false_iff]
      rintro ⟨base, t, r, hbase, -⟩
      simpa [Place.prefixes] using hbase.isPrefix
  | member p field ih =>
      simp only [Place.reachedThrough_member]
      exact ih h
  | deref p ih =>
      obtain ⟨ty, inner, hty, rfl, hinner⟩ := reborrows_deref h
      simp only [List.mem_append, List.mem_map, Option.mem_toList, Place.reachedThrough_deref]
      by_cases hshared : ty.kind? = some .shared
      · rw [if_pos hshared] at hinner
        subst hinner
        constructor
        · rintro (⟨r, hr, rfl⟩ | hnil)
          · exact ⟨p, ty, r, .inl ⟨rfl, hty⟩, hr, rfl⟩
          · cases hnil
        · rintro ⟨base, t, r, ⟨rfl, ht⟩ | ⟨hno, -⟩, hr, rfl⟩
          · rw [hty] at ht
            cases ht
            exact .inl ⟨r, hr, rfl⟩
          · exact absurd hshared (hno ty hty)
      · rw [if_neg hshared] at hinner
        rw [ih hinner]
        constructor
        · rintro (⟨r, hr, rfl⟩ | ⟨base, t, r, hbase, hr, rfl⟩)
          · exact ⟨p, ty, r, .inl ⟨rfl, hty⟩, hr, rfl⟩
          · refine ⟨base, t, r, .inr ⟨?_, hbase⟩, hr, rfl⟩
            intro u hu
            rw [hty] at hu
            cases hu
            exact hshared
        · rintro ⟨base, t, r, ⟨rfl, ht⟩ | ⟨-, hbase⟩, hr, rfl⟩
          · rw [hty] at ht
            cases ht
            exact .inl ⟨r, hr, rfl⟩
          · exact .inr ⟨base, t, r, hbase, hr, rfl⟩

/-- The references that a typed place is reached through have types. -/
theorem exists_reborrows {d : Declared} (l : Loan) {p : Place} {t : Ty} (h : p.typeIn d = .ok t) :
    ∃ cs, l.reborrows d p = .ok cs := by
  induction p generalizing t with
  | var v => exact ⟨[], rfl⟩
  | member p field => cases h
  | deref p ih =>
      obtain ⟨kind, region, isConst, isRestrict, hp⟩ := Place.typeIn_deref.mp h
      obtain ⟨inner, hinner⟩ := ih hp
      rw [reborrows]
      by_cases hshared : kind = .shared
      · exact ⟨_, bind_eq_ok.mpr ⟨_, Cause.locate_eq_ok.mpr hp, if_pos (congrArg some hshared)⟩⟩
      · have hnot : some kind ≠ some .shared := by simp [hshared]
        exact ⟨_, bind_eq_ok.mpr ⟨_, Cause.locate_eq_ok.mpr hp,
          (if_neg hnot).trans (bind_eq_ok.mpr ⟨inner, hinner, rfl⟩)⟩⟩

end Loan

/-! ### Regions that must contain others -/

/-- The first region must contain the second, by the facts of a function. -/
inductive Facts.MustContain (facts : Facts) : RegionId → RegionId → Prop where
  | param {r region d} (hr : facts.regions.get? r = some region)
      (hsite : region.site = some (.param d)) : MustContain facts r Regions.static
  | ret {here p r} (hhere : here ∈ facts.nodes) (hp : p ∈ here.returns)
      (hr : p.ty.region? = some r) :
      MustContain facts r Regions.static
  | assignment {here a r s} (hhere : here ∈ facts.nodes) (ha : a ∈ here.assignments)
      (hrelates : a.Relates facts.loans r s) : MustContain facts r s
  | reborrow {loan base t r} (hloan : loan ∈ facts.loans)
      (hbase : loan.place.ReachedThrough facts.declared base t) (hr : t.region? = some r) :
      MustContain facts r loan.region

/-- A variable is live at the node whose type has the region. -/
def Facts.LiveAt (facts : Facts) (f : Function) (n : NodeId) (r : RegionId) : Prop :=
  ∃ node, f.nodes[n]? = some node ∧
    ∃ e ∈ facts.declared.entries, e.1.name ∈ node.liveIn ∧ r ∈ e.2.regions

theorem Region.isParam_iff {region : Region} :
    region.isParam = true ↔ ∃ d, region.site = some (.param d) := by
  rw [isParam]
  split
  · rename_i d hsite
    simp [hsite]
  · rename_i hno
    simpa using hno

namespace Facts

theorem mem_liveRegions {facts : Facts} {live : List String} {r : RegionId} :
    r ∈ facts.liveRegions live ↔
      ∃ e ∈ facts.declared.entries, e.1.name ∈ live ∧ r ∈ e.2.regions := by
  simp [liveRegions, and_assoc]

theorem mem_globalConstraints {facts : Facts} {config : Config} {g : Graph} {c : Constraint} :
    c ∈ facts.globalConstraints config g ↔
      (config.staticCoversAllPoints ∧ ∃ n < g.size, c = .live Regions.static n) ∨
      ∃ r region d, facts.regions.get? r = some region ∧ region.site = some (.param d) ∧
        c = .outlives r Regions.static g.start := by
  rw [globalConstraints, List.mem_append]
  apply or_congr
  · cases config.staticCoversAllPoints <;> simp [Graph.nodes, eq_comm]
  · simp only [List.mem_filterMap, List.mem_range]
    constructor
    · rintro ⟨r, -, h⟩
      cases hr : facts.regions.get? r with
      | none => simp [hr] at h
      | some region =>
          simp only [hr, Option.map_some, Option.getD_some, Option.ite_none_right_eq_some,
            Region.isParam_iff, Option.some.injEq] at h
          obtain ⟨⟨d, hsite⟩, rfl⟩ := h
          exact ⟨r, region, d, hr, hsite, rfl⟩
    · rintro ⟨r, region, d, hr, hsite, rfl⟩
      refine ⟨r, lt_length_of_getElem? hr, ?_⟩
      simp [hr, Region.isParam_iff.mpr ⟨d, hsite⟩]

theorem mem_nodeConstraints {facts : Facts} {n : NodeId} {live : List String} {here : NodeFacts}
    {cs : List Constraint} (h : facts.nodeConstraints n live here = .ok cs) {c : Constraint} :
    c ∈ cs ↔
      (∃ r ∈ facts.liveRegions live, c = .live r n) ∨
      (∃ a ∈ here.assignments, c ∈ a.constraints facts.loans n) ∨
      (∃ l ∈ here.loans, ∃ loan, facts.loans[l]? = some loan ∧
        ∃ rs, loan.reborrows facts.declared loan.place = .ok rs ∧ c ∈ rs) ∨
      ∃ p ∈ here.returns, ∃ r, p.ty.region? = some r ∧ c = .outlives r Regions.static n := by
  obtain ⟨reborrows, hreborrows, hend⟩ := bind_eq_ok.mp h
  cases hend
  have hlent : c ∈ reborrows.flatten ↔ ∃ l ∈ here.loans, ∃ loan, facts.loans[l]? = some loan ∧
      ∃ rs, loan.reborrows facts.declared loan.place = .ok rs ∧ c ∈ rs := by
    simp only [List.mem_flatten, mem_of_mapM_eq_ok hreborrows, List.mem_filterMap]
    constructor
    · rintro ⟨rs, ⟨loan, ⟨l, hl, hloan⟩, hrs⟩, hc⟩
      exact ⟨l, hl, loan, hloan, rs, hrs, hc⟩
    · rintro ⟨l, hl, loan, hloan, rs, hrs, hc⟩
      exact ⟨rs, ⟨loan, ⟨l, hl, hloan⟩, hrs⟩, hc⟩
  simp only [List.append_assoc, List.mem_append, hlent, List.mem_map, List.mem_flatMap,
    List.mem_filterMap, Option.map_eq_some_iff, IdSet.mem_toList, eq_comm (b := c)]

/-- The constraints of a node have it for their point, loans being listed at their origins only. -/
theorem Filed.point_eq {facts : Facts} (hfiled : facts.Filed) {n : NodeId} {live : List String}
    {here : NodeFacts} (hhere : facts.nodes[n]? = some here) {cs : List Constraint}
    (h : facts.nodeConstraints n live here = .ok cs) {c : Constraint} (hc : c ∈ cs) :
    c.point = n := by
  rcases (mem_nodeConstraints h).mp hc with
    ⟨r, -, rfl⟩ | ⟨a, -, ha⟩ | ⟨l, hl, loan, hloan, rs, hrs, hr⟩ | ⟨p, -, r, -, rfl⟩
  · rfl
  · obtain ⟨_, _, -, rfl⟩ := Assignment.relates_of_mem_constraints ha
    rfl
  · obtain ⟨_, _, _, -, -, rfl⟩ := (Loan.mem_reborrows hrs).mp hr
    obtain ⟨listed, hlisted, horigin⟩ := (hfiled.listed n l).mp (by simpa [hhere] using hl)
    rw [hloan] at hlisted
    cases hlisted
    exact horigin
  · rfl

theorem mem_allConstraints {facts : Facts} {config : Config} {f : Function} {all : List Constraint}
    (h : facts.allConstraints config f = .ok all) {c : Constraint} :
    c ∈ all ↔ c ∈ facts.globalConstraints config f.graph ∨
      ∃ n node here first, f.nodes[n]? = some node ∧ facts.nodes[n]? = some here ∧
        facts.nodeConstraints n node.liveIn here = .ok first ∧ c ∈ first := by
  obtain ⟨perNode, hper, hend⟩ := bind_eq_ok.mp h
  cases hend
  rw [List.mem_append]
  refine or_congr_right ⟨fun hc => ?_, ?_⟩
  · obtain ⟨n, node, here, first, hn, hfirst, hmem⟩ := exists_node_of_mem_nodesConstraints hper hc
    rw [Nat.zero_add] at hfirst
    rw [List.getElem?_zip_eq_some] at hn
    exact ⟨n, node, here, first, hn.1, hn.2, hfirst, hmem⟩
  · rintro ⟨n, node, here, first, hnode, hhere, hfirst, hmem⟩
    have hzip : (f.nodes.zip facts.nodes)[n]? = some (node, here) :=
      List.getElem?_zip_eq_some.mpr ⟨hnode, hhere⟩
    obtain ⟨first', hfirst', hsub⟩ := mem_nodesConstraints hper hzip
    rw [Nat.zero_add, hfirst] at hfirst'
    cases hfirst'
    exact hsub c hmem

/-! ### Typed facts have constraints -/

section typed

variable {facts : Facts} (htyped : facts.Typed)

include htyped

theorem Typed.exists_nodeConstraints (n : NodeId) (live : List String) (here : NodeFacts) :
    ∃ cs, facts.nodeConstraints n live here = .ok cs := by
  have hreborrows : ∀ loan ∈ here.loans.filterMap (facts.loans[·]?),
      ∃ cs, loan.reborrows facts.declared loan.place = .ok cs := by
    intro loan hloan
    obtain ⟨l, -, hl⟩ := List.mem_filterMap.mp hloan
    exact loan.exists_reborrows (htyped.loans loan (List.mem_of_getElem? hl)).place
  obtain ⟨reborrows, hok⟩ := exists_mapM_eq_ok hreborrows
  exact ⟨_, bind_eq_ok.mpr ⟨reborrows, hok, rfl⟩⟩

theorem Typed.exists_nodesConstraints (n : NodeId) (list : List (Node × NodeFacts)) :
    ∃ cs, facts.nodesConstraints n list = .ok cs := by
  induction list generalizing n with
  | nil => exact ⟨[], rfl⟩
  | cons head rest ih =>
      obtain ⟨first, hfirst⟩ := htyped.exists_nodeConstraints n head.1.liveIn head.2
      obtain ⟨later, hlater⟩ := ih (n + 1)
      exact ⟨_, bind_eq_ok.mpr ⟨first, hfirst, bind_eq_ok.mpr ⟨later, hlater, rfl⟩⟩⟩

theorem Typed.exists_allConstraints (config : Config) (f : Function) :
    ∃ all, facts.allConstraints config f = .ok all := by
  obtain ⟨perNode, hper⟩ := htyped.exists_nodesConstraints 0 (f.nodes.zip facts.nodes)
  exact ⟨_, bind_eq_ok.mpr ⟨perNode, hper, rfl⟩⟩

theorem Typed.exists_constraints (config : Config) (f : Function) :
    ∃ cs, facts.constraints config f = .ok cs := by
  obtain ⟨all, hall⟩ := htyped.exists_allConstraints config f
  exact ⟨_, bind_eq_ok.mpr ⟨all, hall, rfl⟩⟩

/-! ### The constraints say which region must contain which -/

theorem Typed.placed_place {p : TypedPlace} (hp : p.Typed facts.declared) :
    p.ty.Placed facts.regions.size :=
  Place.placed_of_typeIn htyped.placed hp

/-- What is true of all regions of declared types and of loans is true of regions that are
related. -/
theorem Typed.of_relates {P : RegionId → Prop}
    (hdeclared : ∀ e ∈ facts.declared.entries, ∀ r ∈ e.2.regions, P r)
    (hlent : ∀ loan ∈ facts.loans, P loan.region) {here : NodeFacts} (hhere : here ∈ facts.nodes)
    {a : Assignment} (ha : a ∈ here.assignments) {r s : RegionId} (h : a.Relates facts.loans r s) :
    P r ∧ P s := by
  obtain ⟨hdest, -, hsource⟩ := (htyped.nodes here hhere).assignments a ha
  have hplace : ∀ {p : Place} {t : Ty} {i : Nat} {r : RegionId}, p.typeIn facts.declared = .ok t →
      t.regionAt? i = some r → P r := by
    intro p t i r hp hr
    obtain ⟨e, he, hmem⟩ := Place.exists_mem_regions hp (Ty.mem_regions.mpr ⟨i, hr⟩)
    exact hdeclared e he r hmem
  have htarget : ∀ {t : RegionId}, a.dest.ty.region? = some t → P t :=
    fun ht => hplace hdest ((Ty.regionAt?_zero _).trans ht)
  have hloans : ∀ {l : LoanId} {loan : Loan}, facts.loans[l]? = some loan →
      P loan.region ∧ loan.place.typeIn facts.declared = .ok loan.placeTy := by
    intro l loan hl
    have hloan := List.mem_of_getElem? hl
    exact ⟨hlent loan hloan, (htyped.loans loan hloan).place⟩
  cases h with
  | borrow hloan ht => exact ⟨(hloans hloan).1, htarget ht⟩
  | lent hloan hr hs => exact ⟨hplace (hloans hloan).2 hr, hplace hdest hs⟩
  | lentBack hloan hr hs _ _ => exact ⟨hplace hdest hs, hplace (hloans hloan).2 hr⟩
  | place hr hs => exact ⟨hplace hsource hr, hplace hdest hs⟩
  | placeBack hr hs _ _ => exact ⟨hplace hdest hs, hplace hsource hr⟩
  | call harg hr ht =>
      obtain ⟨e, he, hmem⟩ := Place.exists_mem_regions (hsource _ harg) hr
      exact ⟨hdeclared e he _ hmem, htarget ht⟩

/-- What is true of all regions of declared types, of loans and of parameters is true of a region
that must contain another, and of the other unless that is `'static`. -/
theorem Typed.of_mustContain {P : RegionId → Prop}
    (hdeclared : ∀ e ∈ facts.declared.entries, ∀ r ∈ e.2.regions, P r)
    (hlent : ∀ loan ∈ facts.loans, P loan.region)
    (hparam : ∀ r region d, facts.regions.get? r = some region →
      region.site = some (.param d) → P r) {r s : RegionId} (h : facts.MustContain r s) :
    P r ∧ (s = Regions.static ∨ P s) := by
  have hplace : ∀ {p : Place} {t : Ty} {r : RegionId}, p.typeIn facts.declared = .ok t →
      t.region? = some r → P r := by
    intro p t r hp hr
    obtain ⟨e, he, hmem⟩ := Place.exists_mem_regions hp (Ty.mem_regions_of_region? hr)
    exact hdeclared e he r hmem
  cases h with
  | param hr hsite => exact ⟨hparam _ _ _ hr hsite, .inl rfl⟩
  | ret hhere hp hr => exact ⟨hplace ((htyped.nodes _ hhere).returns _ hp) hr, .inl rfl⟩
  | assignment hhere ha hrelates =>
      obtain ⟨hr, hs⟩ := htyped.of_relates hdeclared hlent hhere ha hrelates
      exact ⟨hr, .inr hs⟩
  | reborrow hloan hbase hr => exact ⟨hplace hbase.typed hr, .inr (hlent _ hloan)⟩

/-- Regions that must contain others exist, and so do the others. -/
theorem Typed.lt_of_mustContain (hstatic : Regions.static < facts.regions.size) {r s : RegionId}
    (h : facts.MustContain r s) : r < facts.regions.size ∧ s < facts.regions.size := by
  obtain ⟨hr, rfl | hs⟩ := htyped.of_mustContain (P := (· < facts.regions.size))
    (fun e he _ hr => (htyped.placed e he).lt_of_mem_regions hr)
    (fun loan hloan => (htyped.loans loan hloan).region_lt)
    (fun _ _ _ hr _ => lt_length_of_getElem? hr) h
  · exact ⟨hr, hstatic⟩
  · exact ⟨hr, hs⟩

variable {config : Config} {f : Function} {all : List Constraint}
  (h : facts.allConstraints config f = .ok all)

include h

omit htyped in
theorem mustContain_of_mem {r s : RegionId} {p : NodeId} (hc : .outlives r s p ∈ all) :
    facts.MustContain r s := by
  rcases (mem_allConstraints h).mp hc with hglobal | ⟨n, node, here, first, -, hhere, hfirst, hmem⟩
  · rcases mem_globalConstraints.mp hglobal with ⟨-, n, -, heq⟩ | ⟨r, region, d, hr, hsite, heq⟩
    · cases heq
    · cases heq
      exact .param hr hsite
  · have hnode := List.mem_of_getElem? hhere
    rcases (mem_nodeConstraints hfirst).mp hmem with
      ⟨r, -, heq⟩ | ⟨a, ha, hmem⟩ | ⟨l, -, loan, hloan, rs, hrs, hmem⟩ | ⟨q, hq, r, hr, heq⟩
    · cases heq
    · obtain ⟨r, s, hrelates, heq⟩ := Assignment.relates_of_mem_constraints hmem
      cases heq
      exact .assignment hnode ha hrelates
    · obtain ⟨base, t, r, hbase, hr, heq⟩ := (Loan.mem_reborrows hrs).mp hmem
      cases heq
      exact .reborrow (List.mem_of_getElem? hloan) hbase hr
    · cases heq
      exact .ret hnode hq hr

theorem Typed.exists_mem_of_mustContain (hfiled : facts.Filed)
    (hlength : facts.nodes.length = f.nodes.length) {r s : RegionId} (hrs : facts.MustContain r s) :
    ∃ p, .outlives r s p ∈ all := by
  -- A constraint of any node is one of all constraints.
  have hnode : ∀ {n here c}, facts.nodes[n]? = some here →
      (∀ {live first}, facts.nodeConstraints n live here = .ok first → c ∈ first) → c ∈ all := by
    intro n here c hhere hc
    have hlt := lt_length_of_getElem? hhere
    rw [hlength] at hlt
    obtain ⟨first, hfirst⟩ := htyped.exists_nodeConstraints n f.nodes[n].liveIn here
    exact (mem_allConstraints h).mpr
      (.inr ⟨n, _, here, first, List.getElem?_eq_getElem hlt, hhere, hfirst, hc hfirst⟩)
  cases hrs with
  | param hr hsite =>
      exact ⟨f.graph.start, (mem_allConstraints h).mpr
        (.inl (mem_globalConstraints.mpr (.inr ⟨_, _, _, hr, hsite, rfl⟩)))⟩
  | ret hhere hp hr =>
      obtain ⟨n, hn⟩ := List.mem_iff_getElem?.mp hhere
      refine ⟨n, hnode hn fun hfirst => (mem_nodeConstraints hfirst).mpr ?_⟩
      exact .inr (.inr (.inr ⟨_, hp, _, hr, rfl⟩))
  | assignment hhere ha hrelates =>
      obtain ⟨n, hn⟩ := List.mem_iff_getElem?.mp hhere
      obtain ⟨hdest, href, -⟩ := (htyped.nodes _ hhere).assignments _ ha
      obtain ⟨t, ht⟩ := (htyped.placed_place hdest).exists_region href
      refine ⟨n, hnode hn fun hfirst => (mem_nodeConstraints hfirst).mpr ?_⟩
      exact .inr (.inl ⟨_, ha, hrelates.mem_constraints ht n⟩)
  | @reborrow loan base t r hloan hbase hr =>
      obtain ⟨l, hl⟩ := List.mem_iff_getElem?.mp hloan
      obtain ⟨here, hhere, hlisted⟩ := hfiled.exists_origin hl
      obtain ⟨rs, hrs⟩ := loan.exists_reborrows (htyped.loans loan hloan).place
      refine ⟨loan.origin, hnode hhere fun hfirst => (mem_nodeConstraints hfirst).mpr ?_⟩
      exact .inr (.inr (.inl ⟨l, hlisted, loan, hl, rs, hrs,
        (Loan.mem_reborrows hrs).mpr ⟨base, t, r, hbase, hr, rfl⟩⟩))

theorem Typed.live_mem_iff (hlength : facts.nodes.length = f.nodes.length) {r : RegionId}
    {n : NodeId} :
    .live r n ∈ all ↔
      facts.LiveAt f n r ∨ r = Regions.static ∧ n < f.graph.size ∧
        config.staticCoversAllPoints := by
  rw [mem_allConstraints h, mem_globalConstraints, or_comm]
  apply or_congr
  · constructor
    · rintro ⟨n, node, here, first, hn, -, hfirst, hmem⟩
      rcases (mem_nodeConstraints hfirst).mp hmem with
        ⟨r, hr, heq⟩ | ⟨a, -, hmem⟩ | ⟨l, -, loan, -, rs, hrs, hmem⟩ | ⟨q, -, r, -, heq⟩
      · cases heq
        exact ⟨node, hn, mem_liveRegions.mp hr⟩
      · obtain ⟨r, s, -, heq⟩ := Assignment.relates_of_mem_constraints hmem
        cases heq
      · obtain ⟨base, t, r, -, -, heq⟩ := (Loan.mem_reborrows hrs).mp hmem
        cases heq
      · cases heq
    · rintro ⟨node, hn, hlive⟩
      have hlt := lt_length_of_getElem? hn
      rw [← hlength] at hlt
      obtain ⟨first, hfirst⟩ := htyped.exists_nodeConstraints n node.liveIn facts.nodes[n]
      refine ⟨n, node, _, first, hn, List.getElem?_eq_getElem hlt, hfirst, ?_⟩
      exact (mem_nodeConstraints hfirst).mpr (.inl ⟨r, mem_liveRegions.mpr hlive, rfl⟩)
  · constructor
    · rintro (⟨hcovers, m, hm, heq⟩ | ⟨_, _, _, _, _, heq⟩)
      · cases heq
        exact ⟨rfl, hm, hcovers⟩
      · cases heq
    · rintro ⟨rfl, hn, hcovers⟩
      exact .inl ⟨hcovers, n, hn, rfl⟩

end typed

end Facts

end LoanScope
