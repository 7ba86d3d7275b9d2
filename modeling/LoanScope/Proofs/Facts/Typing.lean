import LoanScope.Proofs.Facts.Declarations
import LoanScope.Proofs.Facts.Loans
import LoanScope.Proofs.Region.Least

/-! What the facts of a function say of its places is true: every place has the type recorded with
it, assigned and returned places are references, and their regions exist. -/

namespace LoanScope

/-! ### Types of places -/

theorem Place.typeIn_deref {d : Declared} {p : Place} {t : Ty} :
    p.deref.typeIn d = .ok t ↔
      ∃ kind region isConst isRestrict,
        p.typeIn d = .ok (.ref kind t region isConst isRestrict) := by
  rw [Place.typeIn, bind_eq_ok]
  constructor
  · rintro ⟨ty, hty, h⟩
    cases ty with
    | builtin kind isConst => cases h
    | ref kind pointee region isConst isRestrict =>
        cases h
        exact ⟨kind, region, isConst, isRestrict, hty⟩
  · rintro ⟨kind, region, isConst, isRestrict, hty⟩
    exact ⟨_, hty, rfl⟩

/-- What a place with a type is reached through has a type. -/
theorem Place.exists_typeIn_of_mem_prefixes {d : Declared} {p q : Place} {t : Ty}
    (hq : q.typeIn d = .ok t) (h : p ∈ q.prefixes) : ∃ s, p.typeIn d = .ok s := by
  induction q generalizing t with
  | var v =>
      rw [List.mem_singleton.mp h]
      exact ⟨t, hq⟩
  | deref q ih =>
      rcases List.mem_cons.mp h with rfl | h
      · exact ⟨t, hq⟩
      · obtain ⟨kind, region, isConst, isRestrict, hbase⟩ := typeIn_deref.mp hq
        exact ih hbase h
  | member q field ih => cases hq

/-- The regions in the type of a place are regions of a declared type. -/
theorem Place.placed_of_typeIn {d : Declared} {bound : Nat} (hd : ∀ e ∈ d.entries, e.2.Placed bound)
    {p : Place} {t : Ty} (h : p.typeIn d = .ok t) : t.Placed bound := by
  induction p generalizing t with
  | var v =>
      obtain ⟨e, he, -, rfl⟩ := TypedPlace.Typed.mem_entries (p := ⟨.var v, t⟩) h rfl
      exact hd e he
  | deref p ih =>
      obtain ⟨kind, region, isConst, isRestrict, hp⟩ := Place.typeIn_deref.mp h
      exact (ih hp).2
  | member p field => cases h

theorem Place.exists_mem_regions {d : Declared} {p : Place} {t : Ty} (h : p.typeIn d = .ok t)
    {r : RegionId} (hr : r ∈ t.regions) : ∃ e ∈ d.entries, r ∈ e.2.regions := by
  induction p generalizing t with
  | var v =>
      obtain ⟨e, he, -, rfl⟩ := TypedPlace.Typed.mem_entries (p := ⟨.var v, t⟩) h rfl
      exact ⟨e, he, hr⟩
  | deref p ih =>
      obtain ⟨kind, region, isConst, isRestrict, hp⟩ := Place.typeIn_deref.mp h
      exact ih hp (List.mem_append_right _ hr)
  | member p field => cases h

theorem Ty.Placed.lt_of_mem_regions {bound : Nat} {t : Ty} (h : t.Placed bound) {r : RegionId}
    (hr : r ∈ t.regions) : r < bound := by
  induction t with
  | builtin kind isConst => simp [regions] at hr
  | ref kind pointee region isConst isRestrict ih =>
      obtain ⟨⟨s, rfl, hlt⟩, hpointee⟩ := h
      rcases List.mem_append.mp hr with here | hbelow
      · have hs : r = s := by simpa using here
        exact hs ▸ hlt
      · exact ih hpointee hbelow

theorem Ty.isRef_of_kind? {t : Ty} {kind : BorrowKind} (h : t.kind? = some kind) : t.isRef := by
  cases t with
  | builtin _ _ => cases h
  | ref _ _ _ _ _ => rfl

/-! ### Typed facts -/

/-- The places that a source names have the types recorded with them. -/
def Source.Typed (d : Declared) : Source → Prop
  | borrow _ => True
  | place src => src.Typed d
  | call args => ∀ a ∈ args, a.Typed d

/-- An assignment to a reference, with the types that its places have. -/
structure Assignment.Typed (d : Declared) (a : Assignment) : Prop where
  dest : a.dest.Typed d
  isRef : a.dest.ty.isRef
  source : a.source.Typed d

structure NodeFacts.Typed (d : Declared) (here : NodeFacts) : Prop where
  assignments : ∀ a ∈ here.assignments, a.Typed d
  returns : ∀ p ∈ here.returns, p.Typed d

/-- A loan of a place with the type that it has, and a region below `bound`. -/
structure Loan.Typed (d : Declared) (bound : Nat) (l : Loan) : Prop where
  place : l.place.typeIn d = .ok l.placeTy
  region_lt : l.region < bound

theorem Loan.Typed.mono {d : Declared} {bound more : Nat} {l : Loan} (h : l.Typed d bound)
    (hle : bound ≤ more) : l.Typed d more :=
  ⟨h.place, Nat.lt_of_lt_of_le h.region_lt hle⟩

structure Record.Typed (d : Declared) (r : Record) : Prop where
  loans : ∀ l ∈ r.loans, l.Typed d r.regions.size
  facts : r.facts.Typed d

theorem Record.Typed.assign {d : Declared} {r : Record} (h : r.Typed d) {dest : TypedPlace}
    {source : Source} (ha : Assignment.Typed d ⟨dest, source⟩) :
    (r.assign dest source).Typed d := by
  refine ⟨h.loans, ?_, h.facts.returns⟩
  intro a hmem
  rcases List.mem_append.mp hmem with hold | hnew
  · exact h.facts.assignments a hold
  · rw [List.mem_singleton.mp hnew]
    exact ha

theorem Record.Typed.borrow {s : Scene} {r : Record} (h : r.Typed s.declared) (id : ExprId)
    (span : FileSpan) {lent dest : TypedPlace} {kind : BorrowKind} (hlent : lent.Typed s.declared)
    (hdest : dest.Typed s.declared) (hkind : dest.ty.kind? = some kind) :
    (r.borrow s.node id span lent dest kind).Typed s.declared := by
  have hgrown := r.lt_regions_borrow s.node id span lent dest kind
  refine ⟨?_, ?_, h.facts.returns⟩
  · intro l hl
    rcases List.mem_append.mp hl with hold | hnew
    · exact (h.loans l hold).mono (Nat.le_of_lt hgrown)
    · rw [List.mem_singleton.mp hnew]
      exact ⟨hlent, hgrown⟩
  · intro a ha
    rcases List.mem_append.mp ha with hold | hnew
    · exact h.facts.assignments a hold
    · rw [List.mem_singleton.mp hnew]
      exact ⟨hdest, Ty.isRef_of_kind? hkind, trivial⟩

theorem Record.Typed.act {s : Scene} {r r' : Record} (hact : Act s r r') (h : r.Typed s.declared) :
    r'.Typed s.declared := by
  cases hact with
  | access place mode reach => exact ⟨h.loans, h.facts.assignments, h.facts.returns⟩
  | borrow id span hlent hdest hkind => exact h.borrow id span hlent hdest hkind
  | @pass kind dest src hdest hsrc hkind =>
      have hpassed : (if dest.ty.isRef then r.assign dest (.place src) else r).Typed
          s.declared := by
        split
        · rename_i href
          exact h.assign ⟨hdest, href, hsrc⟩
        · exact h
      rw [Record.pass]
      cases kind <;> exact ⟨hpassed.loans, hpassed.facts.assignments, hpassed.facts.returns⟩
  | call hdest href hargs => exact h.assign ⟨hdest, href, fun a ha => (hargs a ha).1⟩
  | @ret p hp href =>
      refine ⟨h.loans, h.facts.assignments, ?_⟩
      intro q hq
      rcases List.mem_append.mp hq with hold | hnew
      · exact h.facts.returns q hold
      · rw [List.mem_singleton.mp hnew]
        exact hp

theorem StepRecorded.typed {s : Scene} {step : Step} {regions : Regions} {loans : List Loan}
    {r : Record} (h : StepRecorded s step ⟨regions, loans, .empty⟩ r)
    (hloans : ∀ l ∈ loans, l.Typed s.declared regions.size) : r.Typed s.declared := by
  refine h.acts.invariant (fun _ _ => Record.Typed.act) ⟨hloans, ?_, ?_⟩
  · simp [NodeFacts.empty]
  · simp [NodeFacts.empty]

/-- All facts of a function are true of its declared types, whose regions exist. -/
structure Facts.Typed (facts : Facts) : Prop where
  placed : ∀ e ∈ facts.declared.entries, e.2.Placed facts.regions.size
  loans : ∀ l ∈ facts.loans, l.Typed facts.declared facts.regions.size
  nodes : ∀ here ∈ facts.nodes, here.Typed facts.declared

theorem NodesRecorded.typed {d : Declared} {n : NodeId} {nodes : List Node} {regions : Regions}
    {loans : List Loan} {facts : Facts} (h : NodesRecorded d n nodes regions loans facts)
    (hloans : ∀ l ∈ loans, l.Typed d regions.size) :
    (∀ l ∈ facts.loans, l.Typed d facts.regions.size) ∧ ∀ here ∈ facts.nodes, here.Typed d := by
  induction h with
  | nil => exact ⟨hloans, by simp⟩
  | cons hfirst _ ih =>
      have htyped := hfirst.typed hloans
      obtain ⟨hall, hnodes⟩ := ih htyped.loans
      exact ⟨hall, List.forall_mem_cons.mpr ⟨htyped.facts, hnodes⟩⟩

theorem Function.facts_typed {f : Function} {facts : Facts} (h : f.facts = .ok facts) :
    facts.Typed := by
  obtain ⟨registry, hregistry, hrecorded⟩ := Function.facts_recorded h
  obtain ⟨hdeclared, hregions, -, -⟩ := hrecorded.extends
  obtain ⟨hloans, hnodes⟩ := hrecorded.typed (by simp)
  rw [← hdeclared] at hloans hnodes
  refine ⟨?_, hloans, hnodes⟩
  rw [hdeclared]
  intro e he
  exact ((Function.registry_knows hregistry).placed e he).mono hregions.length_le

/-! ### The regions of a function -/

theorem Regions.extend_induction {P : Regions → Prop}
    (hfresh : ∀ rs kind name site, P rs → P (rs.fresh kind name site)) {rs : Regions} (h : P rs)
    (site : Site) (n : Nat) : P (rs.extend site n) := by
  induction n with
  | zero => exact h
  | succ n ih => exact hfresh _ _ _ _ ih

theorem Registry.regions_induction {P : Regions → Prop}
    (hfresh : ∀ rs kind name site, P rs → P (rs.fresh kind name site)) {site : DeclId → Site}
    {decls : List Decl} {r r' : Registry} (h : P r.regions)
    (hfold : decls.foldlM (Registry.add site) r = .ok r') : P r'.regions := by
  induction decls generalizing r with
  | nil =>
      cases hfold
      exact h
  | cons d rest ih =>
      obtain ⟨r₁, hadd, hrest⟩ := bind_eq_ok.mp hfold
      obtain ⟨ty, -, hend⟩ := bind_eq_ok.mp hadd
      cases hend
      exact ih (Regions.extend_induction hfresh h _ _) hrest

theorem NodesRecorded.regions_induction {P : Regions → Prop}
    (hfresh : ∀ rs kind name site, P rs → P (rs.fresh kind name site)) {d : Declared} {n : NodeId}
    {nodes : List Node} {regions : Regions} {loans : List Loan} {facts : Facts} (h : P regions)
    (hrecorded : NodesRecorded d n nodes regions loans facts) : P facts.regions := by
  induction hrecorded with
  | nil => exact h
  | cons hfirst _ ih =>
      refine ih (hfirst.acts.invariant (P := fun r => P r.regions) ?_ h)
      intro r r' hact hr
      cases hact with
      | borrow id span _ _ _ => exact hfresh _ _ _ _ hr
      | @pass kind dest src _ _ _ =>
          rw [Record.pass]
          cases kind <;> split <;> exact hr
      | access _ _ _ => exact hr
      | call _ _ _ => exact hr
      | ret _ _ => exact hr

/-- The regions of a function are added one by one to `'static`. -/
theorem Function.regions_induction {P : Regions → Prop} (hinitial : P .initial)
    (hfresh : ∀ rs kind name site, P rs → P (rs.fresh kind name site)) {f : Function}
    {facts : Facts} (h : f.facts = .ok facts) : P facts.regions := by
  obtain ⟨registry, hregistry, hrecorded⟩ := Function.facts_recorded h
  obtain ⟨r, hparams, hdecls⟩ := Function.registry_folds hregistry
  have hr : P r.regions := Registry.regions_induction hfresh hinitial hparams
  exact hrecorded.regions_induction hfresh (Registry.regions_induction hfresh hr hdecls)

theorem Function.static_lt_size {f : Function} {facts : Facts} (h : f.facts = .ok facts) :
    Regions.static < facts.regions.size := by
  refine Function.regions_induction (P := fun rs => Regions.static < rs.size) Nat.one_pos ?_ h
  intro rs kind name site _
  rw [Regions.size_fresh]
  exact Nat.succ_pos _

/-- No region has a point before regions are inferred. -/
theorem Function.bare_regions {f : Function} {facts : Facts} (h : f.facts = .ok facts) :
    facts.regions.bare = facts.regions := by
  refine Function.regions_induction (P := fun rs => rs.bare = rs) rfl ?_ h
  intro rs kind name site hrs
  simpa [Regions.bare, Regions.fresh] using congrArg Regions.toList hrs

end LoanScope
