import LoanScope.Facts.Constraints
import LoanScope.InScope

/-! The check of a function, phase by phase: derive constraints, infer regions, find the loans in
scope. The phases may run in any order and repeatedly; each works on what the others have left. -/

namespace LoanScope

structure Check where
  function : Function
  config : Config
  facts : Facts
  /-- The regions as inferred so far. -/
  regions : Regions
  constraints : List Constraint
  /-- Passes of the last inference. -/
  passes : Nat
  /-- Loans in scope on entry to each node. -/
  inScope : List IdSet
  /-- Visits of the last search for loans in scope. -/
  visits : Nat

namespace Check

/-- A check before its first phase. -/
def start (f : Function) (config : Config) : Except Fault Check := do
  let facts ← f.facts
  .ok { function := f, config, facts, regions := facts.regions, constraints := [], passes := 0
        inScope := facts.nodes.map fun _ => ∅, visits := 0 }

/-- Replaces the constraints by those that the facts put on the regions as they are now. -/
def buildConstraints (c : Check) : Except Fault Check := do
  .ok { c with
    constraints := ← { c.facts with regions := c.regions }.constraints c.config c.function }

/-- Grows the regions until the constraints hold. -/
def infer (c : Check) : Check :=
  let solved := c.regions.solve c.constraints
  { c with regions := solved.1, passes := solved.2 }

/-- The loans ended at a node: those of what is reached from a place that it overwrites. -/
def kills (c : Check) (n : NodeId) : IdSet :=
  if c.config.killLoansOnOverwrite then
    let written := ((c.facts.nodes[n]?.map NodeFacts.accesses).getD []).filter Access.isShallowWrite
    .ofList ((c.facts.loans.filter fun l => written.any (·.place.isPrefixOf l.place)).map Loan.id)
  else ∅

def makes (c : Check) (n : NodeId) : IdSet :=
  .ofList ((c.facts.nodes[n]?.map NodeFacts.loans).getD [])

/-- Whether a node is in the region of a loan. -/
def holds (c : Check) (l : LoanId) (n : NodeId) : Bool :=
  match c.facts.loans[l]? with
  | none => false
  | some loan => n ∈ c.regions.points loan.region

def flow (c : Check) : Flow where
  graph := c.function.graph
  policy := c.config.joinPolicy
  loans := c.facts.loans.length
  holds := c.holds
  kills := c.kills
  makes := c.makes

/-- Finds the loans in scope, unless the search never ends. -/
def borrowCheck (c : Check) : Option Check := do
  let s ← c.flow.settle
  some { c with inScope := c.function.graph.nodes.map s.entryOf, visits := s.visits }

/-- The accesses at odds with a loan in scope, node by node. -/
def conflicts (c : Check) : List (NodeId × Access × LoanId) :=
  (c.inScope.zip c.facts.nodes).zipIdx.flatMap fun ((inScope, node), n) =>
    node.accesses.flatMap fun a =>
      inScope.toList.filterMap fun l =>
        match c.facts.loans[l]? with
        | some loan => if a.conflicts loan then some (n, a, l) else none
        | none => none

/-- Regions with their points, then the constraints, a line each. -/
def dump (c : Check) : String :=
  let region (r : Region) :=
    "\t'" ++ r.name ++ ": \x7b" ++ ", ".intercalate (r.points.toList.map toString) ++ "\x7d\n"
  let constraint (k : Constraint) := "\t" ++ k.text c.regions ++ "\n"
  "Regions:\n" ++ String.join (c.regions.toList.map region) ++
    "\nConstraints:\n" ++ String.join (c.constraints.map constraint)

end Check

/-- Why a function was not checked. -/
inductive CheckError where
  | fault (f : Fault)
  /-- The search for loans in scope never ends. -/
  | unsettled

def CheckError.message : CheckError → String
  | fault f => f.message
  | unsettled => "loans in scope do not settle"

/-- All phases in order. -/
def Function.check (f : Function) (config : Config) : Except CheckError Check :=
  match Check.start f config >>= Check.buildConstraints with
  | .error e => .error (.fault e)
  | .ok c =>
      match c.infer.borrowCheck with
      | none => .error .unsettled
      | some c => .ok c

end LoanScope
