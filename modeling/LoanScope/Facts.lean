import LoanScope.Function
import LoanScope.Loan
import LoanScope.Ty.OfCType

/-! What a function does to places, node by node: accesses, loans, copies, moves, and the
assignments and returns that references flow through. -/

namespace LoanScope

structure NodeFacts where
  accesses : List Access
  loans : List LoanId
  copies : List Transfer
  moves : List Transfer
  assignments : List Assignment
  returns : List TypedPlace

def NodeFacts.empty : NodeFacts := ⟨[], [], [], [], [], []⟩

instance : Inhabited NodeFacts := ⟨.empty⟩

structure Facts where
  declared : Declared
  regions : Regions
  loans : List Loan
  nodes : List NodeFacts

/-- Attaches a place in the text to a cause. -/
def Cause.locate {α : Type} (span : FileSpan) : Except Cause α → Except Fault α
  | .ok a => .ok a
  | .error cause => .error ⟨cause, span⟩

/-- The place that an expression names; literals name none, and only places are allowed besides. -/
def Expr.place? : Expr → Except Fault (Option Place)
  | lit .. => .ok none
  | var _ _ v => .ok (some (.var v))
  | unary _ span .deref operand => do
      match ← operand.place? with
      | some p => .ok (some p.deref)
      | none => .error ⟨.unsupported (.lvalue .derefOfLiteral), span⟩
  | member _ span base field arrow => do
      match ← base.place? with
      | some p => .ok (some ((if arrow then p.deref else p).member field))
      | none => .error ⟨.unsupported (.lvalue .memberOfLiteral), span⟩
  | paren _ _ inner => inner.place?
  | unary _ span op _ => .error ⟨.unsupported (.lvalue (.unary op)), span⟩
  | binary _ span .. => .error ⟨.unsupported (.lvalue .binary), span⟩
  | call _ span .. => .error ⟨.unsupported (.lvalue .call), span⟩

/-- The place of an expression that must name one; `span` is blamed for a literal. -/
def Expr.place (span : FileSpan) (e : Expr) : Except Fault Place := do
  match ← e.place? with
  | some p => .ok p
  | none => .error ⟨.unsupported (.lvalue .literal), span⟩

/-- A place with its type; `span` is blamed if it has none. -/
def Place.typed (d : Declared) (span : FileSpan) (p : Place) : Except Fault TypedPlace := do
  .ok ⟨p, ← Cause.locate span (p.typeIn d)⟩

/-! ### Recording -/

/-- Where facts are recorded: the declared types, and the node. -/
structure Scene where
  declared : Declared
  node : NodeId

/-- The facts of a node so far, with the regions and loans of the whole function. -/
structure Record where
  regions : Regions
  loans : List Loan
  facts : NodeFacts

namespace Record

def access (r : Record) (place : Place) (mode : Mode) (reach : Reach) : Record :=
  { r with facts := { r.facts with accesses := r.facts.accesses ++ [⟨place, mode, reach⟩] } }

def assign (r : Record) (dest : TypedPlace) (source : Source) : Record :=
  { r with facts := { r.facts with assignments := r.facts.assignments ++ [⟨dest, source⟩] } }

def transfer (r : Record) (kind : TransferKind) (t : Transfer) : Record :=
  match kind with
  | .copy => { r with facts := { r.facts with copies := r.facts.copies ++ [t] } }
  | .move => { r with facts := { r.facts with moves := r.facts.moves ++ [t] } }

def addReturn (r : Record) (p : TypedPlace) : Record :=
  { r with facts := { r.facts with returns := r.facts.returns ++ [p] } }

def lend (r : Record) (l : Loan) : Record :=
  { r with
    loans := r.loans ++ [l]
    facts := { r.facts with loans := r.facts.loans ++ [l.id] } }

end Record

/-- The address of a place is taken. The loan has a region of its own, and the reference that
receives the address decides whether it may write. -/
def Expr.recordBorrow (s : Scene) (id : ExprId) (span : FileSpan) (operand : Expr)
    (dest : Option TypedPlace) (r : Record) : Except Fault Record := do
  let place ← operand.place span
  let region := r.regions.size
  let r := { r with regions := r.regions.fresh .existential none (some (.borrow id)) }
  let lent ← place.typed s.declared span
  match dest with
  | none => .error ⟨.borrowWithoutDestination, span⟩
  | some dest =>
      match dest.ty.kind? with
      | none => .error ⟨.type (.borrowIntoNonReference dest.ty), span⟩
      | some kind =>
          let loan : Loan :=
            { id := r.loans.length, region, kind, declaredTy := dest.ty, place, placeTy := lent.ty
              origin := s.node, expr := id, span }
          let mode := if kind = .mutable then Mode.write else Mode.read
          .ok (((r.lend loan).assign dest (.borrow loan.id)).access place mode .deep)

/-- Arguments are read deeply. Those that are references are returned, if someone asks for them. -/
def Expr.recordArgs (s : Scene) (span : FileSpan) (asked : Bool) (r : Record) :
    List Expr → Except Fault (Record × List TypedPlace)
  | [] => .ok (r, [])
  | e :: rest => do
      match ← e.place? with
      | none => recordArgs s span asked r rest
      | some place =>
          let found ←
            if asked then do
              let p ← place.typed s.declared span
              .ok (if p.ty.isRef then [p] else [])
            else .ok []
          let (r, args) ← recordArgs s span asked (r.access place .read .deep) rest
          .ok (r, found ++ args)

/-- A value that is a place is copied or moved to the destination. -/
def Expr.recordTransfer (s : Scene) (dest : TypedPlace) (value : Expr) (r : Record) :
    Except Fault Record := do
  if value.isVar || value.isDeref then
    match ← value.place? with
    | none => .ok r
    | some place =>
        let src ← place.typed s.declared value.span
        match TransferKind.classify dest.ty src.ty with
        | .error e => .error ⟨.type e, value.span⟩
        | .ok kind =>
            let r := if dest.ty.isRef then r.assign dest (.place src) else r
            .ok (r.transfer kind ⟨dest, src⟩)
  else .ok r

/-- Records an expression whose value goes to `dest`, if it goes anywhere. -/
def Expr.record (s : Scene) (dest : Option TypedPlace) (r : Record) : Expr → Except Fault Record
  | lit .. => .ok r
  | binary _ _ .assign left right => do
      let place ← left.place left.span
      let target ← place.typed s.declared left.span
      let r ← right.record s (some target) (r.access place .write .shallow)
      right.recordTransfer s target r
  | binary _ _ _ left right => do
      let r ← left.record s dest r
      right.record s dest r
  | unary id span .addrOf operand => operand.recordBorrow s id span dest r
  | unary id span .deref operand => do
      match ← (unary id span .deref operand).place? with
      | none => .ok r
      | some place =>
          let p ← place.typed s.declared span
          .ok (r.access p.place .read .deep)
  | unary _ _ _ operand => operand.record s dest r
  | call _ span _ args _ => do
      let receiver := dest.filter (·.ty.isRef)
      let (r, args) ← Expr.recordArgs s span receiver.isSome r args
      match receiver with
      | some dest => .ok (r.assign dest (.call args))
      | none => .ok r
  | var _ span v => do
      let p ← (Place.var v).typed s.declared span
      .ok (r.access p.place (if p.ty.isCopyable then .read else .write) .deep)
  | paren _ span _ => .error ⟨.unsupported .parenthesizedExpression, span⟩
  | member _ span _ field _ => .error ⟨.unsupported (.memberType field), span⟩

/-- An initialised declaration writes its variable. -/
def Decl.record (s : Scene) (d : Decl) (r : Record) : Except Fault Record :=
  match d.init with
  | none => .ok r
  | some init => do
      let target ← (Place.var d.variable).typed s.declared d.span
      let r ← init.record s (some target) (r.access target.place .write .shallow)
      init.recordTransfer s target r

def Stmt.record (s : Scene) (r : Record) : Stmt → Except Fault Record
  | decl _ d => d.record s r
  | expr _ e => e.record s none r
  | label .. => .ok r

/-- A returned reference is recorded as such. -/
def Expr.recordReturn (s : Scene) (e : Expr) (r : Record) : Except Fault Record := do
  let r ← e.record s none r
  if e.isVar || e.isDeref then
    match ← e.place? with
    | none => .ok r
    | some place =>
        let p ← place.typed s.declared e.span
        .ok (if p.ty.isRef then r.addReturn p else r)
  else .ok r

def Step.record (s : Scene) (r : Record) : Step → Except Fault Record
  | start | finish | jump => .ok r
  | instructions stmts => stmts.foldlM (Stmt.record s) r
  | branch cond => cond.record s none r
  | loop cond => cond.record s none r
  | ret none _ => .ok r
  | ret (some value) _ => value.recordReturn s r
  | switch _ span => .error ⟨.unsupported .switchStatement, span⟩

/-- Records the nodes in order, the first of them being node `n`. -/
def Facts.recordNodes (declared : Declared) (regions : Regions) (loans : List Loan) (n : NodeId) :
    List Node → Except Fault Facts
  | [] => .ok ⟨declared, regions, loans, []⟩
  | node :: rest => do
      let r ← node.step.record ⟨declared, n⟩ ⟨regions, loans, .empty⟩
      let facts ← recordNodes declared r.regions r.loans (n + 1) rest
      .ok { facts with nodes := r.facts :: facts.nodes }

/-! ### Declarations -/

/-- The types declared so far, and the regions of their references. -/
structure Registry where
  declared : Declared
  regions : Regions

/-- Gives a variable its type, with a new region for each reference in it. -/
def Registry.add (site : DeclId → Site) (r : Registry) (d : Decl) : Except Fault Registry := do
  let ty ← Cause.locate d.span d.ty.ty.toTy
  .ok ⟨r.declared.add d.variable (ty.number r.regions.size), r.regions.extend (site d.id) ty.depth⟩

/-- The declarations in the statements of a node. -/
def Step.decls : Step → List Decl
  | instructions stmts => stmts.filterMap fun
      | .decl _ d => some d
      | _ => none
  | _ => []

/-- All declarations, parameters first. The return type is looked at only for faults. -/
def Function.registry (f : Function) : Except Fault Registry := do
  let r ← f.params.foldlM (Registry.add .param) ⟨.empty, .initial⟩
  match f.returnTy with
  | none => pure ()
  | some ty => do let _ ← Cause.locate f.span ty.ty.toTy
  (f.nodes.flatMap (·.step.decls)).foldlM (Registry.add .decl) r

/-- The facts of a function. All variables have their types before any node is looked at, so that
the order of nodes does not decide which uses are typed. -/
def Function.facts (f : Function) : Except Fault Facts := do
  let r ← f.registry
  Facts.recordNodes r.declared r.regions [] 0 f.nodes

end LoanScope
