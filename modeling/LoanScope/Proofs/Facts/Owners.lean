import LoanScope.Proofs.Facts.Constraints
import LoanScope.Proofs.Facts.Typing

/-! Who owns a region. Every region but `'static` is made for one level of reference in one declared
type, or for one loan, and each of these has one region: first come the declarations, each from its
innermost level outwards, and then the loans. -/

namespace LoanScope

/-! ### The levels of a declared type -/

namespace Ty

variable {next r i : Nat} {t : Ty}

theorem depth_number (next : RegionId) (t : Ty) : (t.number next).depth = t.depth := by
  induction t with
  | builtin kind isConst => rfl
  | ref kind pointee region isConst isRestrict ih => simp [number, depth, ih]

/-- The regions of a numbered type go down by one from each level to the next. -/
theorem regionAt?_number :
    (t.number next).regionAt? i = some r ↔ i < t.depth ∧ r + i + 1 = next + t.depth := by
  induction t generalizing i with
  | builtin kind isConst => simp [number, depth]
  | ref kind pointee region isConst isRestrict ih =>
      cases i with
      | zero =>
          have hregion :
              ((ref kind pointee region isConst isRestrict).number next).regionAt? 0 = some r ↔
                next + pointee.depth = r := by simp [number, region?]
          rw [hregion, depth]
          omega
      | succ i =>
          simp only [number, depth, regionAt?_ref_succ, ih]
          omega

end Ty

/-! ### Regions that are made -/

/-- A region as it is made for a site. -/
def Region.made (r : RegionId) (site : Site) : Region :=
  ⟨r, .existential, toString r, some site, ∅⟩

namespace Regions

variable {rs : Regions} {site : Site} {r : Nat} {region : Region}

theorem get?_fresh :
    (rs.fresh .existential none (some site)).get? r = some region ↔
      rs.get? r = some region ∨ r = rs.size ∧ region = Region.made r site := by
  rw [get?, fresh, getElem?_concat_eq_some, get?, ← size]
  refine or_congr_right (and_congr_right fun hr => ?_)
  rw [hr]
  rfl

theorem get?_extend {n : Nat} :
    (rs.extend site n).get? r = some region ↔
      rs.get? r = some region ∨ (rs.size ≤ r ∧ r < rs.size + n) ∧ region = Region.made r site := by
  induction n with
  | zero =>
      have hnone : ¬ (rs.size ≤ r ∧ r < rs.size + 0) := by omega
      rw [extend, or_iff_left fun h => hnone h.1]
  | succ n ih =>
      have hrange : (rs.size ≤ r ∧ r < rs.size + n) ∨ r = rs.size + n ↔
          rs.size ≤ r ∧ r < rs.size + (n + 1) := by omega
      rw [extend, get?_fresh, ih, size_extend, or_assoc, ← or_and_right, hrange]

end Regions

/-! ### The regions of declarations -/

/-- All levels of reference in declared types. -/
def Declared.depth (d : Declared) : Nat := d.entries.foldr (fun e total => e.2.depth + total) 0

theorem Declared.depth_add (d : Declared) (v : Variable) (ty : Ty) :
    (d.add v ty).depth = d.depth + ty.depth := by
  rw [depth, add, depth, List.foldr_append]
  simp only [List.foldr_cons, List.foldr_nil, Nat.add_zero]
  induction d.entries with
  | nil => simp
  | cons e rest ih => simp [ih, Nat.add_assoc]

/-- Level `i` of the declaration at position `k` has region `r`. -/
def Declared.Level (d : Declared) (k i r : Nat) : Prop :=
  ∃ e, d.entries[k]? = some e ∧ e.2.regionAt? i = some r

/-- Region `0` is `'static`. The others belong to the levels of the declarations, each of which has
one, made for the site at the declaration's position. -/
structure Registry.Owned (reg : Registry) (sites : List Site) : Prop where
  static : reg.regions.get? Regions.static = some ⟨0, .universal, "static", none, ∅⟩
  length_eq : reg.declared.entries.length = sites.length
  size_eq : reg.regions.size = 1 + reg.declared.depth
  positive : ∀ k i r, reg.declared.Level k i r → 0 < r
  made : ∀ k i r site, reg.declared.Level k i r → sites[k]? = some site →
    reg.regions.get? r = some (Region.made r site)
  owned : ∀ r, 0 < r → r < reg.regions.size → ∃ k i, reg.declared.Level k i r
  unique : ∀ k i k' i' r, reg.declared.Level k i r → reg.declared.Level k' i' r → k = k' ∧ i = i'
  levels : ∀ e ∈ reg.declared.entries, ∃ low, ∀ i r,
    e.2.regionAt? i = some r ↔ i < e.2.depth ∧ r + i + 1 = low + e.2.depth

namespace Registry.Owned

variable {reg reg' : Registry} {sites : List Site}

theorem initial : Registry.Owned ⟨.empty, .initial⟩ [] := by
  refine ⟨rfl, rfl, rfl, ?_, ?_, ?_, ?_, ?_⟩
  all_goals simp [Declared.Level, Declared.empty, Regions.initial, Regions.size]
  omega

theorem lt_size (h : reg.Owned sites) {k i r : Nat} (hlevel : reg.declared.Level k i r) :
    r < reg.regions.size := by
  obtain ⟨e, he, hr⟩ := hlevel
  have hk : k < sites.length := h.length_eq ▸ lt_length_of_getElem? he
  have hget := h.made k i r _ ⟨e, he, hr⟩ (List.getElem?_eq_getElem hk)
  exact lt_length_of_getElem? hget

theorem level_add {d : Declared} {v : Variable} {ty : Ty} {next k i r : Nat} :
    (d.add v (ty.number next)).Level k i r ↔
      d.Level k i r ∨ k = d.entries.length ∧ i < ty.depth ∧ r + i + 1 = next + ty.depth := by
  simp only [Declared.Level, Declared.add, getElem?_concat_eq_some]
  constructor
  · rintro ⟨e, he | ⟨hk, rfl⟩, hr⟩
    · exact .inl ⟨e, he, hr⟩
    · exact .inr ⟨hk, Ty.regionAt?_number.mp hr⟩
  · rintro (⟨e, he, hr⟩ | ⟨hk, hr⟩)
    · exact ⟨e, .inl he, hr⟩
    · exact ⟨_, .inr ⟨hk, rfl⟩, Ty.regionAt?_number.mpr hr⟩

/-- A declaration gets the regions after all others. -/
theorem add (h : reg.Owned sites) {site : DeclId → Site} {d : Decl}
    (hadd : reg.add site d = .ok reg') :
    reg'.Owned (sites ++ [site d.id]) := by
  obtain ⟨ty, -, hend⟩ := bind_eq_ok.mp hadd
  cases hend
  have hold : ∀ k i r, reg.declared.Level k i r → k < reg.declared.entries.length ∧
      r < reg.regions.size := by
    rintro k i r ⟨e, he, hr⟩
    exact ⟨lt_length_of_getElem? he, h.lt_size ⟨e, he, hr⟩⟩
  have hsize := h.size_eq
  refine ⟨?_, ?_, ?_, ?_, ?_, ?_, ?_, ?_⟩
  · exact Regions.get?_extend.mpr (.inl h.static)
  · simp [Declared.add, h.length_eq]
  · rw [Regions.size_extend, Declared.depth_add, Ty.depth_number, hsize, Nat.add_assoc]
  · intro k i r hlevel
    rcases level_add.mp hlevel with hlevel | ⟨-, hi, hr⟩
    · exact h.positive k i r hlevel
    · omega
  · intro k i r s hlevel hs
    rw [Regions.get?_extend]
    rcases level_add.mp hlevel with hlevel | ⟨rfl, hi, hr⟩
    · have hk : k < sites.length := h.length_eq ▸ (hold k i r hlevel).1
      rw [List.getElem?_append_left hk] at hs
      exact .inl (h.made k i r s hlevel hs)
    · rw [h.length_eq, List.getElem?_concat_length] at hs
      cases hs
      exact .inr ⟨by omega, rfl⟩
  · intro r hpos hlt
    rw [Regions.size_extend] at hlt
    by_cases hr : r < reg.regions.size
    · obtain ⟨k, i, hlevel⟩ := h.owned r hpos hr
      exact ⟨k, i, level_add.mpr (.inl hlevel)⟩
    · exact ⟨reg.declared.entries.length, reg.regions.size + ty.depth - 1 - r,
        level_add.mpr (.inr ⟨rfl, by omega, by omega⟩)⟩
  · intro k i k' i' r hlevel hlevel'
    rcases level_add.mp hlevel with hlevel | ⟨rfl, hi, hr⟩
    · have hlt := hold k i r hlevel
      rcases level_add.mp hlevel' with hlevel' | ⟨-, hi', hr'⟩
      · exact h.unique k i k' i' r hlevel hlevel'
      · omega
    · rcases level_add.mp hlevel' with hlevel' | ⟨rfl, hi', hr'⟩
      · have hlt := hold k' i' r hlevel'
        omega
      · exact ⟨rfl, by omega⟩
  · intro e he
    rcases List.mem_append.mp he with he | he
    · exact h.levels e he
    · rw [List.mem_singleton.mp he]
      exact ⟨reg.regions.size, fun i r => by rw [Ty.regionAt?_number, Ty.depth_number]⟩

theorem foldlM (h : reg.Owned sites) {site : DeclId → Site} {decls : List Decl}
    (hfold : decls.foldlM (Registry.add site) reg = .ok reg') :
    reg'.Owned (sites ++ decls.map fun d => site d.id) := by
  induction decls generalizing reg sites with
  | nil =>
      cases hfold
      simpa using h
  | cons d rest ih =>
      obtain ⟨reg₁, hadd, hrest⟩ := bind_eq_ok.mp hfold
      simpa using ih (h.add hadd) hrest

end Registry.Owned

/-- The declarations of a function, parameters first. -/
def Function.decls (f : Function) : List Decl := f.params ++ f.nodes.flatMap (·.step.decls)

/-- The site that each declaration's regions are made for. -/
def Function.sites (f : Function) : List Site :=
  f.params.map (fun d => .param d.id) ++ (f.nodes.flatMap (·.step.decls)).map fun d => .decl d.id

theorem Function.registry_owned {f : Function} {reg : Registry} (h : f.registry = .ok reg) :
    reg.Owned f.sites := by
  obtain ⟨reg₁, hparams, hdecls⟩ := Function.registry_folds h
  have howned := Registry.Owned.initial.foldlM hparams
  rw [List.nil_append] at howned
  exact howned.foldlM hdecls

/-! ### The regions of loans -/

/-- After the regions of declarations, every loan has the next region, made for its expression. -/
structure Record.Lined (base : Regions) (r : Record) : Prop where
  kept : base.toList <+: r.regions.toList
  size_eq : r.regions.size = base.size + r.loans.length
  region_eq : ∀ l (loan : Loan), r.loans[l]? = some loan → loan.region = base.size + l
  made : ∀ loan ∈ r.loans, r.regions.get? loan.region =
    some (Region.made loan.region (.borrow loan.expr))

namespace Record.Lined

variable {base : Regions} {r r' : Record}

theorem of_eq (h : r.Lined base) (hregions : r'.regions = r.regions) (hloans : r'.loans = r.loans) :
    r'.Lined base := by
  obtain ⟨hkept, hsize, hregion, hmade⟩ := h
  rw [← hregions] at hkept hsize hmade
  rw [← hloans] at hsize hregion hmade
  exact ⟨hkept, hsize, hregion, hmade⟩

theorem borrow (h : r.Lined base) (node : NodeId) (id : ExprId) (span : FileSpan)
    (lent dest : TypedPlace) (kind : BorrowKind) :
    (r.borrow node id span lent dest kind).Lined base := by
  have hregions : (r.borrow node id span lent dest kind).regions =
      r.regions.fresh .existential none (some (.borrow id)) := rfl
  have hloans : (r.borrow node id span lent dest kind).loans =
      r.loans ++ [⟨r.loans.length, r.regions.size, kind, dest.ty, lent.place, lent.ty, node,
        id, span⟩] := rfl
  refine ⟨?_, ?_, ?_, ?_⟩
  · rw [hregions]
    exact h.kept.trans (List.prefix_append _ _)
  · rw [hregions, hloans, Regions.size_fresh, h.size_eq, List.length_append, List.length_singleton,
      Nat.add_assoc]
  · intro l loan hloan
    rw [hloans, getElem?_concat_eq_some] at hloan
    rcases hloan with hold | ⟨rfl, rfl⟩
    · exact h.region_eq l loan hold
    · exact h.size_eq
  · intro loan hloan
    rw [hregions, Regions.get?_fresh]
    rw [hloans] at hloan
    rcases List.mem_append.mp hloan with hold | hnew
    · exact .inl (h.made loan hold)
    · rw [List.mem_singleton.mp hnew]
      exact .inr ⟨rfl, rfl⟩

theorem act {s : Scene} (hact : Act s r r') (h : r.Lined base) : r'.Lined base := by
  cases hact with
  | access place mode reach => exact h.of_eq rfl rfl
  | borrow id span _ _ _ => exact h.borrow s.node id span _ _ _
  | @pass kind dest src _ _ _ =>
      rw [Record.pass]
      apply h.of_eq <;> cases kind <;> split <;> rfl
  | call _ _ _ => exact h.of_eq rfl rfl
  | ret _ _ => exact h.of_eq rfl rfl

end Record.Lined

theorem NodesRecorded.lined {base : Regions} {d : Declared} {n : NodeId} {nodes : List Node}
    {regions : Regions} {loans : List Loan} {facts : Facts}
    (h : NodesRecorded d n nodes regions loans facts)
    (hlined : Record.Lined base ⟨regions, loans, .empty⟩) :
    Record.Lined base ⟨facts.regions, facts.loans, .empty⟩ := by
  induction h with
  | nil => exact hlined
  | cons hfirst _ ih =>
      have hafter := hfirst.acts.invariant (fun _ _ => Record.Lined.act) hlined
      exact ih (hafter.of_eq rfl rfl)

/-! ### Owners -/

/-- What a region may belong to: a level of reference, the outermost being level `0`, in the type of
a declaration, or a loan. -/
inductive Owner where
  | level (decl : DeclId) (i : Nat)
  | loan (l : LoanId)
deriving DecidableEq

/-- The owners of a region, each with the site of its regions. -/
inductive Facts.Owns (facts : Facts) (f : Function) (r : Nat) : Owner → Site → Prop where
  | param {d ty i} (hd : d ∈ f.params) (hty : facts.declared.get? d.id = some ty)
      (hr : ty.regionAt? i = some r) : Owns facts f r (.level d.id i) (.param d.id)
  | decl {d ty i} (hd : d ∈ f.nodes.flatMap (·.step.decls))
      (hty : facts.declared.get? d.id = some ty)
      (hr : ty.regionAt? i = some r) : Owns facts f r (.level d.id i) (.decl d.id)
  | loan {l loan} (hl : facts.loans[l]? = some loan) (hr : loan.region = r) :
      Owns facts f r (.loan l) (.borrow loan.expr)

/-- Regions and their owners are in bijection, `'static` apart, which nothing owns. -/
structure Facts.RegionsOwned (facts : Facts) (f : Function) : Prop where
  static : facts.regions.get? Regions.static = some ⟨0, .universal, "static", none, ∅⟩
  static_not_declared : ∀ e ∈ facts.declared.entries, Regions.static ∉ e.2.regions
  static_not_lent : ∀ loan ∈ facts.loans, loan.region ≠ Regions.static
  existsUnique_owner : ∀ r, 0 < r → r < facts.regions.size →
    ∃! o : Owner × Site, facts.Owns f r o.1 o.2
  made : ∀ r o site, facts.Owns f r o site →
    facts.regions.get? r = some ⟨r, .existential, toString r, some site, ∅⟩
  region_unique : ∀ o r r' site site', facts.Owns f r o site → facts.Owns f r' o site' → r = r'
  /-- Every declaration has its type, -/
  declared : facts.declared.entries.map Prod.fst = f.decls.map Decl.variable
  /-- and each level of reference in it has the region after that of the level below. -/
  levels : ∀ e ∈ facts.declared.entries, ∃ low, ∀ i r : Nat,
    e.2.regionAt? i = some r ↔ i < e.2.depth ∧ r + i + 1 = low + e.2.depth
  size_eq : facts.regions.size = 1 + facts.declared.depth + facts.loans.length

/-- Declarations that are numbered by position are found by position. -/
theorem Declared.findRev?_eq_getElem? {entries : List (Variable × Ty)} {m : Nat}
    (h : entries.map (·.1.decl) = List.range' m entries.length) (k : Nat) :
    entries.findRev? (·.1.decl = m + k) = entries[k]? := by
  induction entries generalizing m k with
  | nil => rfl
  | cons e rest ih =>
      simp only [List.map_cons, List.length_cons, List.range'_succ, List.cons.injEq] at h
      rw [List.findRev?]
      cases k with
      | zero =>
          have hlater : rest.findRev? (·.1.decl = m + 0) = none := by
            rw [List.findRev?_eq_find?_reverse, List.find?_eq_none]
            intro e' he'
            have hmem : e'.1.decl ∈ List.range' (m + 1) rest.length :=
              h.2 ▸ List.mem_map_of_mem (List.mem_reverse.mp he')
            have hlt : m < e'.1.decl := (List.mem_range'_1.mp hmem).1
            simpa using Nat.ne_of_gt hlt
          rw [hlater]
          simp [h.1]
      | succ k =>
          have hne : e.1.decl ≠ m + (k + 1) := by
            rw [h.1]
            exact Nat.ne_of_lt (Nat.lt_add_of_pos_right (Nat.succ_pos k))
          have hnext : m + (k + 1) = m + 1 + k := by omega
          rw [hnext, ih h.2 k, List.getElem?_cons_succ, ← hnext]
          cases rest[k]? with
          | none => simp [hne]
          | some e' => rfl

namespace Facts

variable {f : Function} {facts : Facts}

/-- Declarations are numbered by position, and have their types in the same order. -/
structure InOrder (facts : Facts) (f : Function) : Prop where
  declared : facts.declared.entries.map Prod.fst = f.decls.map Decl.variable
  ids : f.decls.map Decl.id = List.range' 0 f.decls.length

namespace InOrder

theorem id_eq (h : facts.InOrder f) {k : Nat} {d : Decl} (hd : f.decls[k]? = some d) :
    d.id = k := by
  obtain ⟨hk, rfl⟩ := List.getElem?_eq_some_iff.mp hd
  have hid := List.getElem_of_eq h.ids (i := k) (by simpa using hk)
  simpa using hid

theorem length_eq (h : facts.InOrder f) : facts.declared.entries.length = f.decls.length := by
  simpa using congrArg List.length h.declared

theorem get?_eq (h : facts.InOrder f) (k : Nat) :
    facts.declared.get? k = (facts.declared.entries[k]?).map Prod.snd := by
  have hids : facts.declared.entries.map (·.1.decl) =
      List.range' 0 facts.declared.entries.length := by
    calc facts.declared.entries.map (·.1.decl)
        = (facts.declared.entries.map Prod.fst).map Variable.decl := by rw [List.map_map]; rfl
      _ = f.decls.map Decl.id := by rw [h.declared, List.map_map]; rfl
      _ = List.range' 0 facts.declared.entries.length := by rw [h.ids, h.length_eq]
  rw [Declared.get?, ← Declared.findRev?_eq_getElem? hids, Nat.zero_add]

/-- The declaration at a position has the position for its number, and its site is that of a
parameter or of a local variable. -/
theorem getElem?_sites (h : facts.InOrder f) {k : Nat} {site : Site} :
    f.sites[k]? = some site ↔
      (∃ d ∈ f.params, d.id = k ∧ site = .param k) ∨
        ∃ d ∈ f.nodes.flatMap (·.step.decls), d.id = k ∧ site = .decl k := by
  have hparam : ∀ {j} {d : Decl}, f.params[j]? = some d → d.id = j := by
    intro j d hd
    exact h.id_eq ((List.getElem?_append_left (lt_length_of_getElem? hd)).trans hd)
  have hlocal : ∀ {j} {d : Decl}, (f.nodes.flatMap (·.step.decls))[j]? = some d →
      d.id = f.params.length + j := by
    intro j d hd
    refine h.id_eq ?_
    rw [Function.decls, List.getElem?_append_right (Nat.le_add_right _ _), Nat.add_sub_cancel_left]
    exact hd
  rw [Function.sites]
  constructor
  · intro hsite
    by_cases hk : k < f.params.length
    · rw [List.getElem?_append_left (by simpa using hk), List.getElem?_map] at hsite
      obtain ⟨d, hd, rfl⟩ := Option.map_eq_some_iff.mp hsite
      exact .inl ⟨d, List.mem_of_getElem? hd, hparam hd, by rw [hparam hd]⟩
    · have hge : f.params.length ≤ k := Nat.le_of_not_lt hk
      rw [List.getElem?_append_right (by simpa using hge), List.length_map,
        List.getElem?_map] at hsite
      obtain ⟨d, hd, rfl⟩ := Option.map_eq_some_iff.mp hsite
      have hid : d.id = k := by rw [hlocal hd, Nat.add_sub_cancel' hge]
      exact .inr ⟨d, List.mem_of_getElem? hd, hid, by rw [hid]⟩
  · rintro (⟨d, hd, rfl, rfl⟩ | ⟨d, hd, rfl, rfl⟩)
    · obtain ⟨j, hj⟩ := List.mem_iff_getElem?.mp hd
      have hlt : d.id < (f.params.map fun d => Site.param d.id).length := by
        rw [hparam hj, List.length_map]
        exact lt_length_of_getElem? hj
      rw [List.getElem?_append_left hlt, List.getElem?_map, hparam hj, hj,
        Option.map_some, hparam hj]
    · obtain ⟨j, hj⟩ := List.mem_iff_getElem?.mp hd
      rw [hlocal hj, List.getElem?_append_right (by simp), List.length_map, Nat.add_sub_cancel_left,
        List.getElem?_map, hj, Option.map_some, hlocal hj]

/-- The owners of a region by position: a level of a declaration, or a loan. -/
theorem owns_iff (h : facts.InOrder f) {r : Nat} {o : Owner} {site : Site} :
    facts.Owns f r o site ↔
      (∃ k i, facts.declared.Level k i r ∧ f.sites[k]? = some site ∧ o = .level k i) ∨
        ∃ (l : Nat) (loan : Loan), facts.loans[l]? = some loan ∧ loan.region = r ∧ o = .loan l ∧
          site = .borrow loan.expr := by
  have hlevel : ∀ {k i}, facts.declared.Level k i r ↔
      ∃ ty, facts.declared.get? k = some ty ∧ ty.regionAt? i = some r := by
    intro k i
    rw [h.get?_eq]
    constructor
    · rintro ⟨e, he, hr⟩
      exact ⟨e.2, by rw [he]; rfl, hr⟩
    · rintro ⟨ty, hty, hr⟩
      obtain ⟨e, he, rfl⟩ := Option.map_eq_some_iff.mp hty
      exact ⟨e, he, hr⟩
  constructor
  · intro hown
    cases hown with
    | param hd hty hr =>
        exact .inl ⟨_, _, hlevel.mpr ⟨_, hty, hr⟩,
          h.getElem?_sites.mpr (.inl ⟨_, hd, rfl, rfl⟩), rfl⟩
    | decl hd hty hr =>
        exact .inl ⟨_, _, hlevel.mpr ⟨_, hty, hr⟩,
          h.getElem?_sites.mpr (.inr ⟨_, hd, rfl, rfl⟩), rfl⟩
    | loan hl hr => exact .inr ⟨_, _, hl, hr, rfl, rfl⟩
  · rintro (⟨k, i, hk, hsite, rfl⟩ | ⟨l, loan, hl, hr, rfl, rfl⟩)
    · obtain ⟨ty, hty, hr⟩ := hlevel.mp hk
      rcases h.getElem?_sites.mp hsite with ⟨d, hd, rfl, rfl⟩ | ⟨d, hd, rfl, rfl⟩
      · exact .param hd hty hr
      · exact .decl hd hty hr
    · exact .loan hl hr

end InOrder

/-! ### Regions and owners -/

/-- The regions of declarations lie below `base`, and those of loans follow in order. -/
structure Arranged (facts : Facts) (f : Function) (base : Nat) : Prop where
  static : facts.regions.get? Regions.static = some ⟨0, .universal, "static", none, ∅⟩
  base_eq : base = 1 + facts.declared.depth
  size_eq : facts.regions.size = base + facts.loans.length
  level_lt : ∀ k i r, facts.declared.Level k i r → 0 < r ∧ r < base
  exists_level : ∀ r, 0 < r → r < base → ∃ k i, facts.declared.Level k i r
  level_unique : ∀ k i k' i' r, facts.declared.Level k i r → facts.declared.Level k' i' r →
    k = k' ∧ i = i'
  level_made : ∀ k i r, facts.declared.Level k i r →
    ∃ site, f.sites[k]? = some site ∧ facts.regions.get? r = some (Region.made r site)
  levels : ∀ e ∈ facts.declared.entries, ∃ low, ∀ i r : Nat,
    e.2.regionAt? i = some r ↔ i < e.2.depth ∧ r + i + 1 = low + e.2.depth
  loan_region : ∀ l (loan : Loan), facts.loans[l]? = some loan → base + l = loan.region
  loan_made : ∀ loan ∈ facts.loans,
    facts.regions.get? loan.region = some (Region.made loan.region (.borrow loan.expr))

theorem exists_arranged (hfacts : f.facts = .ok facts) : ∃ base, facts.Arranged f base := by
  obtain ⟨reg, hreg, hrecorded⟩ := Function.facts_recorded hfacts
  have howned := Function.registry_owned hreg
  have hdeclared : facts.declared = reg.declared := hrecorded.extends.1
  have hstart : Record.Lined reg.regions ⟨reg.regions, [], .empty⟩ :=
    ⟨List.prefix_rfl, rfl, by simp, by simp⟩
  have hlined := hrecorded.lined hstart
  -- What the registry says of a region stays true of it.
  have hkept : ∀ {r region}, reg.regions.get? r = some region →
      facts.regions.get? r = some region :=
    fun hr => getElem?_of_prefix hlined.kept hr
  refine ⟨reg.regions.size, hkept howned.static, ?_, hlined.size_eq, ?_, ?_, ?_, ?_, ?_,
    ?_, hlined.made⟩
  · rw [howned.size_eq, hdeclared]
  · intro k i r hlevel
    rw [hdeclared] at hlevel
    exact ⟨howned.positive k i r hlevel, howned.lt_size hlevel⟩
  · rw [hdeclared]
    exact howned.owned
  · rw [hdeclared]
    exact howned.unique
  · rintro k i r ⟨e, he, hr⟩
    rw [hdeclared] at he
    have hk : k < f.sites.length := howned.length_eq ▸ lt_length_of_getElem? he
    have hsite := List.getElem?_eq_getElem hk
    exact ⟨_, hsite, hkept (howned.made k i r _ ⟨e, he, hr⟩ hsite)⟩
  · rw [hdeclared]
    exact howned.levels
  · intro l loan hl
    exact (hlined.region_eq l loan hl).symm

namespace Arranged

variable {base r : Nat} {o o' : Owner} {site site' : Site}

/-- A region of a declaration has its level for an owner, and no loan. -/
theorem owns_unique (h : facts.Arranged f base) (hord : facts.InOrder f)
    (hown : facts.Owns f r o site) (hown' : facts.Owns f r o' site') : o = o' ∧ site = site' := by
  rcases hord.owns_iff.mp hown with ⟨k, i, hk, hsite, rfl⟩ | ⟨l, loan, hl, hr, rfl, rfl⟩
  · rcases hord.owns_iff.mp hown' with ⟨k', i', hk', hsite', rfl⟩ | ⟨l, loan, hl, hr, -, -⟩
    · obtain ⟨rfl, rfl⟩ := h.level_unique k i k' i' r hk hk'
      exact ⟨rfl, Option.some.inj (hsite.symm.trans hsite')⟩
    · have hlt := (h.level_lt k i r hk).2
      have hge := (h.loan_region l loan hl).trans hr
      omega
  · have hge := (h.loan_region l loan hl).trans hr
    rcases hord.owns_iff.mp hown' with ⟨k', i', hk', -, -⟩ | ⟨l', loan', hl', hr', rfl, rfl⟩
    · have hlt := (h.level_lt k' i' r hk').2
      omega
    · have hge' := (h.loan_region l' loan' hl').trans hr'
      obtain rfl : l = l' := by omega
      rw [hl] at hl'
      cases hl'
      exact ⟨rfl, rfl⟩

theorem exists_owner (h : facts.Arranged f base) (hord : facts.InOrder f) (hpos : 0 < r)
    (hlt : r < facts.regions.size) : ∃ o site, facts.Owns f r o site := by
  rw [h.size_eq] at hlt
  by_cases hr : r < base
  · obtain ⟨k, i, hk⟩ := h.exists_level r hpos hr
    obtain ⟨site, hsite, -⟩ := h.level_made k i r hk
    exact ⟨_, site, hord.owns_iff.mpr (.inl ⟨k, i, hk, hsite, rfl⟩)⟩
  · have hl : r - base < facts.loans.length := by omega
    have hget := List.getElem?_eq_getElem hl
    have hregion : base + (r - base) = facts.loans[r - base].region := h.loan_region _ _ hget
    rw [Nat.add_sub_cancel' (Nat.le_of_not_lt hr)] at hregion
    exact ⟨_, _, hord.owns_iff.mpr (.inr ⟨_, _, hget, hregion.symm, rfl, rfl⟩)⟩

theorem made (h : facts.Arranged f base) (hord : facts.InOrder f) (hown : facts.Owns f r o site) :
    facts.regions.get? r = some (Region.made r site) := by
  rcases hord.owns_iff.mp hown with ⟨k, i, hk, hsite, -⟩ | ⟨l, loan, hl, rfl, -, rfl⟩
  · obtain ⟨site', hsite', hmade⟩ := h.level_made k i r hk
    rw [hsite] at hsite'
    cases hsite'
    exact hmade
  · exact h.loan_made loan (List.mem_of_getElem? hl)

end Arranged

/-- An owner has one region. -/
theorem InOrder.region_unique (hord : facts.InOrder f) {r r' : Nat} {o : Owner} {site site' : Site}
    (hown : facts.Owns f r o site) (hown' : facts.Owns f r' o site') : r = r' := by
  rcases hord.owns_iff.mp hown with ⟨k, i, ⟨e, he, hr⟩, -, rfl⟩ | ⟨l, loan, hl, hr, rfl, -⟩
  · rcases hord.owns_iff.mp hown' with ⟨k', i', ⟨e', he', hr'⟩, -, heq⟩ | ⟨_, _, _, _, heq, _⟩
    · cases heq
      rw [he] at he'
      cases he'
      exact Option.some.inj (hr.symm.trans hr')
    · cases heq
  · rcases hord.owns_iff.mp hown' with ⟨_, _, _, _, heq⟩ | ⟨l', loan', hl', hr', heq, -⟩
    · cases heq
    · cases heq
      rw [hl] at hl'
      cases hl'
      exact hr.symm.trans hr'

/-- If declarations are numbered by position, regions and owners are in bijection. -/
theorem InOrder.regionsOwned (hord : facts.InOrder f) (hfacts : f.facts = .ok facts) :
    facts.RegionsOwned f := by
  obtain ⟨base, h⟩ := exists_arranged hfacts
  refine ⟨h.static, ?_, ?_, ?_, fun r o site => h.made hord,
    fun o r r' site site' => hord.region_unique, hord.declared, h.levels, ?_⟩
  · intro e he hmem
    obtain ⟨k, hk⟩ := List.mem_iff_getElem?.mp he
    obtain ⟨i, hi⟩ := Ty.mem_regions.mp hmem
    exact absurd (h.level_lt k i 0 ⟨e, hk, hi⟩).1 (Nat.lt_irrefl 0)
  · intro loan hmem
    obtain ⟨l, hl⟩ := List.mem_iff_getElem?.mp hmem
    have hbase : 0 < base + l := by
      rw [h.base_eq]
      omega
    rw [← h.loan_region l loan hl]
    exact Nat.ne_of_gt hbase
  · intro r hpos hlt
    obtain ⟨o, site, hown⟩ := h.exists_owner hord hpos hlt
    refine ⟨(o, site), hown, ?_⟩
    rintro ⟨o', site'⟩ (hown' : facts.Owns f r o' site')
    obtain ⟨ho, hsite⟩ := h.owns_unique hord hown' hown
    rw [ho, hsite]
  · rw [h.size_eq, h.base_eq]

end Facts

end LoanScope
