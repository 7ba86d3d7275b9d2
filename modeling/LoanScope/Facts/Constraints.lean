import LoanScope.Config
import LoanScope.Constraint
import LoanScope.Facts

/-! Constraints that the facts of a function put on its regions. -/

namespace LoanScope

/-- Relates two types level by level: the regions of `sub` outlive those of `sup`, and also the
other way below a mutable reference, where the value may be replaced through either. -/
def Ty.relate (point : NodeId) (invariant : Bool) : (sub sup : Ty) → List Constraint
  | .ref _ p r _ _, .ref kind q s _ _ =>
      (match r, s with
        | some r, some s =>
            .outlives r s point :: (if invariant then [.outlives s r point] else [])
        | _, _ => []) ++
        p.relate point (invariant || kind = .mutable) q
  | _, _ => []

/-- Each reference that a lent place is reached through outlives the loan, from the outermost in, up
to the first shared one: what lies behind that stays valid whatever happens further out. -/
def Loan.reborrows (d : Declared) (l : Loan) : Place → Except Fault (List Constraint)
  | .var _ => .ok []
  | .member p _ => l.reborrows d p
  | .deref p => do
      let ty ← Cause.locate l.span (p.typeIn d)
      let here := ty.region?.toList.map fun r => .outlives r l.region l.origin
      if ty.kind? = some .shared then .ok here
      else .ok (here ++ (← l.reborrows d p))

/-- What an assignment asks of the regions of its source. -/
def Assignment.constraints (loans : List Loan) (point : NodeId) (a : Assignment) :
    List Constraint :=
  match a.dest.ty.region? with
  | none => []
  | some target =>
      match a.source with
      | .borrow id =>
          match loans[id]? with
          | none => []
          | some l =>
              .outlives l.region target point ::
                (match a.dest.ty.pointee? with
                  | none => []
                  | some pointee =>
                      l.placeTy.relate point (a.dest.ty.kind? = some .mutable) pointee)
      | .place src => src.ty.relate point false a.dest.ty
      | .call args => args.flatMap fun arg => arg.ty.regions.map fun r => .outlives r target point

namespace Facts

/-- The regions in the types of live variables. -/
def liveRegions (facts : Facts) (live : List String) : IdSet :=
  .ofList ((facts.declared.entries.filter fun e => e.1.name ∈ live).flatMap fun e => e.2.regions)

/-- The region `'static` covers the graph if so configured, and parameters outlive the function. -/
def globalConstraints (facts : Facts) (config : Config) (g : Graph) : List Constraint :=
  (if config.staticCoversAllPoints then g.nodes.map (.live Regions.static ·) else []) ++
    (List.range facts.regions.size).filterMap fun r =>
      if ((facts.regions.get? r).map Region.isParam).getD false then
        some (.outlives r Regions.static g.start)
      else none

/-- The constraints of one node: liveness, assignments, reborrows, returns. -/
def nodeConstraints (facts : Facts) (point : NodeId) (live : List String) (node : NodeFacts) :
    Except Fault (List Constraint) := do
  let reborrows ← (node.loans.filterMap (facts.loans[·]?)).mapM fun l =>
    l.reborrows facts.declared l.place
  .ok ((facts.liveRegions live).toList.map (.live · point) ++
    node.assignments.flatMap (Assignment.constraints facts.loans point) ++
    reborrows.flatten ++
    node.returns.filterMap fun p => p.ty.region?.map fun r => .outlives r Regions.static point)

/-- The constraints of nodes in order, the first of them being node `n`. -/
def nodesConstraints (facts : Facts) (n : NodeId) :
    List (Node × NodeFacts) → Except Fault (List Constraint)
  | [] => .ok []
  | (node, here) :: rest => do
      let first ← facts.nodeConstraints n node.liveIn here
      .ok (first ++ (← facts.nodesConstraints (n + 1) rest))

/-- All constraints, also repeated and idle ones. -/
def allConstraints (facts : Facts) (config : Config) (f : Function) :
    Except Fault (List Constraint) := do
  let perNode ← facts.nodesConstraints 0 (f.nodes.zip facts.nodes)
  .ok (facts.globalConstraints config f.graph ++ perNode)

end Facts

/-- Whether a constraint asks nothing: a region outlives itself. -/
def Constraint.isIdle : Constraint → Bool
  | outlives longer shorter _ => longer = shorter
  | live _ _ => false

/-- Keeps the first of equal constraints, and drops idle ones. -/
def Constraint.tidy (cs : List Constraint) : List Constraint :=
  (cs.filter fun c => !c.isIdle).eraseDups

def Facts.constraints (facts : Facts) (config : Config) (f : Function) :
    Except Fault (List Constraint) := do
  .ok (Constraint.tidy (← facts.allConstraints config f))

end LoanScope
