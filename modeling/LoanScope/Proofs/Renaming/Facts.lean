import LoanScope.Facts.Constraints
import LoanScope.Proofs.Renaming.Binding

/-! Facts and constraints under renaming. Recording never compares names, so it commutes with any
change of them. Constraints speak of regions and nodes alone: a name decides only which variables
are live, and for that different names must stay different. -/

namespace LoanScope

/-! ### Names in faults and facts -/

section definitions

variable (ρ : String → String)

def Unsupported.rename : Unsupported → Unsupported
  | switchStatement => switchStatement
  | elaboratedType keyword name => elaboratedType keyword (ρ name)
  | parenthesizedExpression => parenthesizedExpression
  | lvalue e => lvalue e
  | memberType field => memberType (ρ field)

def TypeError.rename : TypeError → TypeError
  | constRestrictPointer => constRestrictPointer
  | restrictOnNonPointer => restrictOnNonPointer
  | copyabilityMismatch dest src => copyabilityMismatch dest src
  | borrowIntoNonReference ty => borrowIntoNonReference ty
  | derefOfNonReference ty => derefOfNonReference ty
  | unknownDeclaration name => unknownDeclaration (ρ name)

def Cause.rename : Cause → Cause
  | unsupported u => unsupported (u.rename ρ)
  | type e => type (e.rename ρ)
  | borrowWithoutDestination => borrowWithoutDestination

def Fault.rename (f : Fault) : Fault := ⟨f.cause.rename ρ, f.span⟩

def Place.rename : Place → Place
  | var v => var (v.rename ρ)
  | deref p => deref p.rename
  | member p field => member p.rename (ρ field)

def Declared.rename (d : Declared) : Declared := ⟨d.entries.map (Prod.map (Variable.rename ρ) id)⟩

def TypedPlace.rename (p : TypedPlace) : TypedPlace := ⟨p.place.rename ρ, p.ty⟩

def Access.rename (a : Access) : Access := ⟨a.place.rename ρ, a.mode, a.reach⟩

def Transfer.rename (t : Transfer) : Transfer := ⟨t.dest.rename ρ, t.src.rename ρ⟩

def Source.rename : Source → Source
  | borrow l => borrow l
  | place src => place (src.rename ρ)
  | call args => call (args.map (TypedPlace.rename ρ))

def Assignment.rename (a : Assignment) : Assignment := ⟨a.dest.rename ρ, a.source.rename ρ⟩

def Loan.rename (l : Loan) : Loan := { l with place := l.place.rename ρ }

def NodeFacts.rename (n : NodeFacts) : NodeFacts where
  accesses := n.accesses.map (Access.rename ρ)
  loans := n.loans
  copies := n.copies.map (Transfer.rename ρ)
  moves := n.moves.map (Transfer.rename ρ)
  assignments := n.assignments.map (Assignment.rename ρ)
  returns := n.returns.map (TypedPlace.rename ρ)

def Facts.rename (facts : Facts) : Facts where
  declared := facts.declared.rename ρ
  regions := facts.regions
  loans := facts.loans.map (Loan.rename ρ)
  nodes := facts.nodes.map (NodeFacts.rename ρ)

def Scene.rename (s : Scene) : Scene := ⟨s.declared.rename ρ, s.node⟩

def Record.rename (r : Record) : Record :=
  ⟨r.regions, r.loans.map (Loan.rename ρ), r.facts.rename ρ⟩

def Registry.rename (r : Registry) : Registry := ⟨r.declared.rename ρ, r.regions⟩

end definitions

section recording

variable {ρ : String → String}

/-! ### Types and places -/

theorem CType.toTyUnder_rename (quals : Qualifiers) (t : CType) :
    (t.rename ρ).toTyUnder quals = mapBoth (Cause.rename ρ) id (t.toTyUnder quals) := by
  induction t generalizing quals with
  | builtin kind =>
      simp only [rename, toTyUnder]
      split <;> rfl
  | pointer pointee ih =>
      refine bind_eq_mapBoth (ih .none) fun p => ?_
      simp only [id]
      split <;> rfl
  | qualified q inner ih => exact ih _
  | typedef name underlying ih => exact ih quals
  | elaborated keyword name => rfl

theorem Cause.locate_rename {α β : Type} {h : α → β} (span : FileSpan) {x : Except Cause α}
    {x' : Except Cause β} (hx : x' = mapBoth (Cause.rename ρ) h x) :
    locate span x' = mapBoth (Fault.rename ρ) h (locate span x) := by
  subst hx
  cases x <;> rfl

theorem Declared.get?_rename (d : Declared) (decl : DeclId) :
    (d.rename ρ).get? decl = d.get? decl := by
  simp only [get?_eq_find?, rename, ← List.map_reverse, List.find?_map, Option.map_map]
  rfl

theorem Place.typeIn_rename (d : Declared) (p : Place) :
    (p.rename ρ).typeIn (d.rename ρ) = mapBoth (Cause.rename ρ) id (p.typeIn d) := by
  induction p with
  | var v =>
      simp only [rename, typeIn, Variable.rename, Declared.get?_rename]
      cases d.get? v.decl <;> rfl
  | deref p ih =>
      refine bind_eq_mapBoth ih fun ty => ?_
      cases ty <;> rfl
  | member p field ih => rfl

theorem Place.typed_rename (d : Declared) (span : FileSpan) (p : Place) :
    (p.rename ρ).typed (d.rename ρ) span =
      mapBoth (Fault.rename ρ) (TypedPlace.rename ρ) (p.typed d span) :=
  bind_eq_mapBoth (Cause.locate_rename span (p.typeIn_rename d)) fun _ => rfl

namespace Expr

theorem span_rename (e : Expr) : (e.rename ρ).span = e.span := by
  cases e <;> rfl

theorem isVar_rename (e : Expr) : (e.rename ρ).isVar = e.isVar := by
  cases e <;> rfl

theorem isDeref_rename (e : Expr) : (e.rename ρ).isDeref = e.isDeref := by
  cases e with
  | unary id span op operand => cases op <;> rfl
  | _ => rfl

theorem place?_rename (e : Expr) :
    (e.rename ρ).place? = mapBoth (Fault.rename ρ) (Option.map (Place.rename ρ)) e.place? := by
  induction e using place?.induct with
  | case1 => rfl
  | case2 => rfl
  | case3 id span operand ih =>
      refine bind_eq_mapBoth ih fun p => ?_
      cases p <;> rfl
  | case4 id span base field arrow ih =>
      refine bind_eq_mapBoth ih fun p => ?_
      cases p <;> cases arrow <;> rfl
  | case5 id span inner ih => exact ih
  | case6 id span op operand hop =>
      rw [rename, place?, place?]
      · rfl
      · exact hop
      · exact hop
  | case7 => rfl
  | case8 => rfl

theorem place_rename (span : FileSpan) (e : Expr) :
    (e.rename ρ).place span = mapBoth (Fault.rename ρ) (Place.rename ρ) (e.place span) := by
  refine bind_eq_mapBoth e.place?_rename fun p => ?_
  cases p <;> rfl

end Expr

/-- Types have no names in them, so a mismatch of types has none. -/
theorem TransferKind.rename_of_classify {dest src : Ty} {e : TypeError}
    (h : classify dest src = .error e) : e.rename ρ = e := by
  rw [classify] at h
  split at h <;> cases h
  rfl

/-! ### Recording -/

namespace Record

theorem access_rename (r : Record) (p : Place) (mode : Mode) (reach : Reach) :
    (r.rename ρ).access (p.rename ρ) mode reach = (r.access p mode reach).rename ρ := by
  simp [access, rename, NodeFacts.rename, Access.rename]

theorem assign_rename (r : Record) (dest : TypedPlace) (source : Source) :
    (r.rename ρ).assign (dest.rename ρ) (source.rename ρ) = (r.assign dest source).rename ρ := by
  simp [assign, rename, NodeFacts.rename, Assignment.rename]

theorem transfer_rename (r : Record) (kind : TransferKind) (t : Transfer) :
    (r.rename ρ).transfer kind (t.rename ρ) = (r.transfer kind t).rename ρ := by
  cases kind <;> simp [transfer, rename, NodeFacts.rename]

theorem addReturn_rename (r : Record) (p : TypedPlace) :
    (r.rename ρ).addReturn (p.rename ρ) = (r.addReturn p).rename ρ := by
  simp [addReturn, rename, NodeFacts.rename]

end Record

namespace Expr

theorem recordBorrow_rename (s : Scene) (id : ExprId) (span : FileSpan) (operand : Expr)
    (dest : Option TypedPlace) (r : Record) :
    (operand.rename ρ).recordBorrow (s.rename ρ) id span (dest.map (TypedPlace.rename ρ))
      (r.rename ρ) =
      mapBoth (Fault.rename ρ) (Record.rename ρ) (operand.recordBorrow s id span dest r) := by
  refine bind_eq_mapBoth (operand.place_rename span) fun place => ?_
  refine bind_eq_mapBoth (place.typed_rename s.declared span) fun lent => ?_
  cases dest with
  | none => rfl
  | some dest =>
      simp only [Option.map_some, TypedPlace.rename]
      cases hkind : dest.ty.kind? with
      | none => rfl
      | some kind =>
          simp only [Record.access, Record.assign, Record.lend, Record.rename, NodeFacts.rename,
            mapBoth_ok, List.map_append, List.map_cons, List.map_nil, List.length_map]
          rfl

theorem recordArgs_rename (s : Scene) (span : FileSpan) (asked : Bool) (args : List Expr)
    (r : Record) :
    recordArgs (s.rename ρ) span asked (r.rename ρ) (listRename ρ args) =
      mapBoth (Fault.rename ρ) (Prod.map (Record.rename ρ) (List.map (TypedPlace.rename ρ)))
        (recordArgs s span asked r args) := by
  induction args generalizing r with
  | nil => rfl
  | cons e rest ih =>
      refine bind_eq_mapBoth e.place?_rename fun p => ?_
      cases p with
      | none => exact ih r
      | some place =>
          -- The rest is recorded the same way, whatever was found before it.
          have hrest : ∀ found : List TypedPlace,
              (recordArgs (s.rename ρ) span asked ((r.rename ρ).access (place.rename ρ) .read .deep)
                  (listRename ρ rest) >>= fun x =>
                .ok (x.1, found.map (TypedPlace.rename ρ) ++ x.2)) =
              mapBoth (Fault.rename ρ) (Prod.map (Record.rename ρ) (List.map (TypedPlace.rename ρ)))
                (recordArgs s span asked (r.access place .read .deep) rest >>= fun x =>
                  .ok (x.1, found ++ x.2)) := by
            intro found
            rw [Record.access_rename]
            exact bind_eq_mapBoth (ih _) fun x => by simp
          cases asked with
          | false => exact hrest []
          | true =>
              refine bind_eq_mapBoth (place.typed_rename s.declared span) fun p => ?_
              cases hp : p.ty.isRef with
              | false =>
                  simp only [TypedPlace.rename, hp]
                  exact hrest []
              | true =>
                  simp only [TypedPlace.rename, hp]
                  exact hrest [p]

theorem recordTransfer_rename (s : Scene) (dest : TypedPlace) (value : Expr) (r : Record) :
    (value.rename ρ).recordTransfer (s.rename ρ) (dest.rename ρ) (r.rename ρ) =
      mapBoth (Fault.rename ρ) (Record.rename ρ) (value.recordTransfer s dest r) := by
  simp only [recordTransfer, isVar_rename, isDeref_rename, span_rename]
  split
  · refine bind_eq_mapBoth value.place?_rename fun p => ?_
    cases p with
    | none => rfl
    | some place =>
        refine bind_eq_mapBoth (place.typed_rename s.declared value.span) fun src => ?_
        simp only [TypedPlace.rename]
        cases hkind : TransferKind.classify dest.ty src.ty with
        | error e =>
            rw [mapBoth_error, Fault.rename, Cause.rename, TransferKind.rename_of_classify hkind]
        | ok kind =>
            by_cases hdest : dest.ty.isRef
            · simp only [hdest]
              have hassign := r.assign_rename (ρ := ρ) dest (.place src)
              have htransfer := (r.assign dest (.place src)).transfer_rename
                (ρ := ρ) kind ⟨dest, src⟩
              rw [← hassign] at htransfer
              exact congrArg Except.ok htransfer
            · simp only [hdest]
              exact congrArg Except.ok (r.transfer_rename kind ⟨dest, src⟩)
  · rfl

theorem record_rename (s : Scene) (dest : Option TypedPlace) (r : Record) (e : Expr) :
    (e.rename ρ).record (s.rename ρ) (dest.map (TypedPlace.rename ρ)) (r.rename ρ) =
      mapBoth (Fault.rename ρ) (Record.rename ρ) (e.record s dest r) := by
  induction dest, r, e using Expr.record.induct with
  | case1 => rfl
  | case2 dest r id span left right ih =>
      rw [rename, record, record, span_rename]
      refine bind_eq_mapBoth (left.place_rename left.span) fun place => ?_
      refine bind_eq_mapBoth (place.typed_rename s.declared left.span) fun target => ?_
      rw [Record.access_rename]
      exact bind_eq_mapBoth (ih place target) fun r₁ => right.recordTransfer_rename s target r₁
  | case3 dest r id span op left right hop ihl ihr =>
      rw [rename, record, record]
      · exact bind_eq_mapBoth ihl ihr
      · exact hop
      · exact hop
  | case4 dest r id span operand => exact operand.recordBorrow_rename s id span dest r
  | case5 dest r id span operand =>
      rw [rename, record, record]
      refine bind_eq_mapBoth (place?_rename (.unary id span .deref operand)) fun p => ?_
      cases p with
      | none => rfl
      | some place =>
          refine bind_eq_mapBoth (place.typed_rename s.declared span) fun p => ?_
          exact congrArg Except.ok (r.access_rename p.place .read .deep)
  | case6 dest r id span op operand haddr hderef ih =>
      rw [rename, record, record]
      · exact ih
      all_goals assumption
  | case7 dest r id span callee args ty =>
      have hreceiver : (dest.map (TypedPlace.rename ρ)).filter (·.ty.isRef) =
          (dest.filter (·.ty.isRef)).map (TypedPlace.rename ρ) := Option.filter_map
      rw [rename, record, record, hreceiver, Option.isSome_map]
      refine bind_eq_mapBoth (recordArgs_rename s span _ args r) ?_
      rintro ⟨r₁, found⟩
      cases dest.filter (·.ty.isRef) with
      | none => rfl
      | some target => exact congrArg Except.ok (r₁.assign_rename target (.call found))
  | case8 dest r id span v =>
      refine bind_eq_mapBoth ((Place.var v).typed_rename s.declared span) fun p => ?_
      exact congrArg Except.ok (r.access_rename p.place
        (if p.ty.isCopyable then .read else .write) .deep)
  | case9 => rfl
  | case10 => rfl

theorem recordReturn_rename (s : Scene) (e : Expr) (r : Record) :
    (e.rename ρ).recordReturn (s.rename ρ) (r.rename ρ) =
      mapBoth (Fault.rename ρ) (Record.rename ρ) (e.recordReturn s r) := by
  refine bind_eq_mapBoth (e.record_rename s none r) fun r₁ => ?_
  rw [isVar_rename, isDeref_rename, span_rename]
  split
  · refine bind_eq_mapBoth e.place?_rename fun p => ?_
    cases p with
    | none => rfl
    | some place =>
        refine bind_eq_mapBoth (place.typed_rename s.declared e.span) fun p => ?_
        cases hp : p.ty.isRef with
        | false => simp [TypedPlace.rename, hp]
        | true => simpa [TypedPlace.rename, hp] using r₁.addReturn_rename (ρ := ρ) p
  · rfl

end Expr

theorem Decl.record_rename (s : Scene) (d : Decl) (r : Record) :
    (d.rename ρ).record (s.rename ρ) (r.rename ρ) =
      mapBoth (Fault.rename ρ) (Record.rename ρ) (d.record s r) := by
  rw [Decl.record, Decl.record, Decl.rename]
  cases d.init with
  | none => rfl
  | some init =>
      refine bind_eq_mapBoth ((Place.var d.variable).typed_rename s.declared d.span)
        fun target => ?_
      rw [TypedPlace.rename, Record.access_rename]
      refine bind_eq_mapBoth (init.record_rename s (some target) _) fun r₁ => ?_
      exact init.recordTransfer_rename s target r₁

theorem Stmt.record_rename (s : Scene) (r : Record) (stmt : Stmt) :
    (stmt.rename ρ).record (s.rename ρ) (r.rename ρ) =
      mapBoth (Fault.rename ρ) (Record.rename ρ) (stmt.record s r) := by
  cases stmt with
  | decl id d => exact d.record_rename s r
  | expr id e => exact e.record_rename s none r
  | label id name span => rfl

theorem Step.record_rename (s : Scene) (r : Record) (step : Step) :
    (step.rename ρ).record (s.rename ρ) (r.rename ρ) =
      mapBoth (Fault.rename ρ) (Record.rename ρ) (step.record s r) := by
  cases step with
  | instructions stmts => exact foldlM_eq_mapBoth (Stmt.record_rename s) stmts r
  | branch cond | loop cond => exact cond.record_rename s none r
  | ret value span =>
      cases value with
      | none => rfl
      | some e => exact e.recordReturn_rename s r
  | switch e span | start | finish | jump => rfl

theorem Facts.recordNodes_rename (d : Declared) (nodes : List Node) (regions : Regions)
    (loans : List Loan) (n : NodeId) :
    recordNodes (d.rename ρ) regions (loans.map (Loan.rename ρ)) n (nodes.map (Node.rename ρ)) =
      mapBoth (Fault.rename ρ) (Facts.rename ρ) (recordNodes d regions loans n nodes) := by
  induction nodes generalizing regions loans n with
  | nil => rfl
  | cons node rest ih =>
      refine bind_eq_mapBoth (node.step.record_rename ⟨d, n⟩ ⟨regions, loans, .empty⟩) fun r => ?_
      exact bind_eq_mapBoth (ih r.regions r.loans (n + 1)) fun facts => rfl

/-! ### Declarations -/

theorem Registry.add_rename (site : DeclId → Site) (r : Registry) (d : Decl) :
    (r.rename ρ).add site (d.rename ρ) = mapBoth (Fault.rename ρ) (Registry.rename ρ)
      (r.add site d) := by
  refine bind_eq_mapBoth (Cause.locate_rename d.span (CType.toTyUnder_rename .none d.ty.ty))
    fun ty => ?_
  simp [Registry.rename, Declared.rename, Declared.add, Decl.rename, Decl.variable, Variable.rename]

theorem Step.decls_rename (step : Step) :
    (step.rename ρ).decls = step.decls.map (Decl.rename ρ) := by
  cases step with
  | instructions stmts =>
      rw [Step.rename, Step.decls, Step.decls, List.filterMap_map, List.map_filterMap]
      refine List.filterMap_congr fun stmt _ => ?_
      cases stmt <;> rfl
  | _ => rfl

end recording

/-! ### The facts of a function -/

variable {ρ : String ↪ String}

namespace Function

theorem registry_rename (f : Function) :
    (f.rename ρ).registry = mapBoth (Fault.rename ρ) (Registry.rename ρ) f.registry := by
  have hdecls : (f.rename ρ).nodes.flatMap (·.step.decls) =
      (f.nodes.flatMap (·.step.decls)).map (Decl.rename ρ) := by
    simp [rename, List.flatMap_map, List.map_flatMap, Node.rename, Step.decls_rename]
  rw [registry, registry, hdecls]
  refine bind_eq_mapBoth (foldlM_eq_mapBoth (Registry.add_rename .param) f.params
    ⟨.empty, .initial⟩) ?_
  intro r
  have hnodes := foldlM_eq_mapBoth (Registry.add_rename (ρ := ρ) .decl)
    (f.nodes.flatMap (·.step.decls)) r
  rw [rename]
  cases f.returnTy with
  | none => exact hnodes
  | some ty =>
      exact bind_eq_mapBoth (Cause.locate_rename f.span (CType.toTyUnder_rename .none ty.ty))
        fun _ => hnodes

theorem facts_rename (f : Function) :
    (f.rename ρ).facts = mapBoth (Fault.rename ρ) (Facts.rename ρ) f.facts :=
  bind_eq_mapBoth f.registry_rename fun r =>
    Facts.recordNodes_rename r.declared f.nodes r.regions [] 0

end Function

/-! ### Constraints -/

theorem reborrows_rename (d : Declared) (l : Loan) (p : Place) :
    (l.rename ρ).reborrows (d.rename ρ) (p.rename ρ) =
      mapBoth (Fault.rename ρ) id (l.reborrows d p) := by
  induction p with
  | var v => rfl
  | member p field ih => exact ih
  | deref p ih =>
      refine bind_eq_mapBoth (Cause.locate_rename l.span (p.typeIn_rename d)) fun ty => ?_
      simp only [id]
      split
      · rfl
      · exact bind_eq_mapBoth ih fun _ => rfl

theorem Assignment.constraints_rename (loans : List Loan) (point : NodeId) (a : Assignment) :
    (a.rename ρ).constraints (loans.map (Loan.rename ρ)) point = a.constraints loans point := by
  cases a with
  | mk dest source =>
      simp only [constraints, rename, TypedPlace.rename]
      cases dest.ty.region? with
      | none => rfl
      | some target =>
          cases source with
          | borrow l =>
              simp only [Source.rename, List.getElem?_map]
              cases loans[l]? <;> rfl
          | place src => rfl
          | call args =>
              simp only [Source.rename, List.flatMap_map]
              rfl

namespace Facts

theorem liveRegions_rename (facts : Facts) (live : List String) :
    (facts.rename ρ).liveRegions (live.map ρ) = facts.liveRegions live := by
  have hlive : ∀ e : Variable × Ty, (Prod.map (Variable.rename ρ) id e).1.name ∈ live.map ρ ↔
      e.1.name ∈ live := fun e => List.mem_map_of_injective ρ.injective
  simp only [liveRegions, rename, Declared.rename, List.filter_map, List.flatMap_map,
    Function.comp_def, hlive]
  rfl

theorem nodeConstraints_rename (facts : Facts) (point : NodeId) (live : List String)
    (node : NodeFacts) :
    (facts.rename ρ).nodeConstraints point (live.map ρ) (node.rename ρ) =
      mapBoth (Fault.rename ρ) id (facts.nodeConstraints point live node) := by
  have hloans : node.loans.filterMap ((facts.loans.map (Loan.rename ρ))[·]?) =
      (node.loans.filterMap (facts.loans[·]?)).map (Loan.rename ρ) := by
    simp [List.map_filterMap]
  have hassignments : (node.assignments.map (Assignment.rename ρ)).flatMap
        (Assignment.constraints (facts.loans.map (Loan.rename ρ)) point) =
      node.assignments.flatMap (Assignment.constraints facts.loans point) := by
    simp [List.flatMap_map, Assignment.constraints_rename]
  rw [nodeConstraints, nodeConstraints, liveRegions_rename]
  simp only [rename, NodeFacts.rename, hloans, hassignments]
  refine bind_eq_mapBoth (mapM_eq_mapBoth (fun l => reborrows_rename facts.declared l l.place) _) ?_
  intro reborrows
  simp only [List.map_id, List.filterMap_map]
  rfl

theorem nodesConstraints_rename (facts : Facts) (nodes : List (Node × NodeFacts)) (n : NodeId) :
    (facts.rename ρ).nodesConstraints n
      (nodes.map (Prod.map (Node.rename ρ) (NodeFacts.rename ρ))) =
      mapBoth (Fault.rename ρ) id (facts.nodesConstraints n nodes) := by
  induction nodes generalizing n with
  | nil => rfl
  | cons head rest ih =>
      refine bind_eq_mapBoth (facts.nodeConstraints_rename n head.1.liveIn head.2) fun first => ?_
      exact bind_eq_mapBoth (ih (n + 1)) fun _ => rfl

/-- Changed names put the same constraints on the regions. -/
theorem constraints_rename (facts : Facts) (config : Config) (f : Function) :
    (facts.rename ρ).constraints config (f.rename ρ) =
      mapBoth (Fault.rename ρ) id (facts.constraints config f) := by
  have hnodes : (f.rename ρ).nodes.zip (facts.rename ρ).nodes =
      (f.nodes.zip facts.nodes).map (Prod.map (Node.rename ρ) (NodeFacts.rename ρ)) := List.zip_map
  have hall : (facts.rename ρ).allConstraints config (f.rename ρ) =
      mapBoth (Fault.rename ρ) id (facts.allConstraints config f) := by
    rw [allConstraints, hnodes]
    exact bind_eq_mapBoth (facts.nodesConstraints_rename _ 0) fun _ => rfl
  exact bind_eq_mapBoth hall fun _ => rfl

end Facts

end LoanScope
