import LoanScope.Check
import LoanScope.Fixture.Json
import LoanScope.Function.OfFixture

/-! What is told about a checked function, in words and numbers. -/

namespace LoanScope

structure RegionSummary where
  name : String
  points : List NodeId

structure LoanSummary where
  id : String
  place : String
  kind : String
  origin : NodeId
  region : String

structure NodeSummary where
  id : NodeId
  inScope : List String
  copies : List String
  moves : List String

structure Report where
  function : String
  regions : List RegionSummary
  loans : List LoanSummary
  nodes : List NodeSummary
  passes : Nat
  dump : String

def Check.report (c : Check) : Report where
  function := c.function.name
  regions := c.regions.toList.map fun r => ⟨"'" ++ r.name, r.points.toList⟩
  loans := c.facts.loans.map fun l =>
    ⟨LoanId.text l.id, l.place.text, l.kind.text, l.origin, RegionId.text l.region⟩
  nodes := (c.facts.nodes.zip c.inScope).zipIdx.map fun ((node, inScope), n) =>
    ⟨n, inScope.toList.map LoanId.text, node.copies.map Transfer.text, node.moves.map Transfer.text⟩
  passes := c.passes
  dump := c.dump

namespace Report

/-- The loans in scope on entry to a node; none for a node that does not exist. -/
def inScopeAt (r : Report) (n : NodeId) : List String :=
  ((r.nodes.find? (·.id = n)).map NodeSummary.inScope).getD []

def toJson (r : Report) : Json :=
  .obj
    [("function", .str r.function),
      ("regions", Json.ofList (fun (s : RegionSummary) =>
        .obj [("name", .str s.name), ("points", Json.nats s.points)]) r.regions),
      ("loans", Json.ofList (fun (s : LoanSummary) =>
        .obj [("id", .str s.id), ("path", .str s.place), ("kind", .str s.kind),
          ("origin", .ofNat s.origin), ("region", .str s.region)]) r.loans),
      ("nodes", Json.ofList (fun (s : NodeSummary) =>
        .obj [("id", .ofNat s.id), ("in_scope_loans", Json.strings s.inScope),
          ("copies", Json.strings s.copies), ("moves", Json.strings s.moves)]) r.nodes),
      ("inference_passes", .ofNat r.passes),
      ("dump", .str r.dump)]

end Report

/-- Why there is no report. -/
inductive Error where
  /-- The text is no fixture. -/
  | json
  | fixture (error : FixtureError)
  | check (error : CheckError)

namespace Error

def message : Error → String
  | json => "invalid fixture:"
  | fixture e => e.message
  | check e => e.message

/-- The place in the checked function that is to blame, if there is one. -/
def span? : Error → Option FileSpan
  | check (.fault f) => some f.span
  | _ => none

end Error

/-- Binds and checks a fixture, with all its spans in `file`. -/
def Fixture.check (f : Fixture) (file : FileId) (config : Config) : Except Error Report :=
  match f.toFunction file with
  | .error e => .error (.fixture e)
  | .ok function =>
      match function.check config with
      | .error e => .error (.check e)
      | .ok c => .ok c.report

/-- Reads, binds and checks a fixture. -/
def checkText (text : String) (config : Config) : Except Error Report :=
  match Fixture.parse? text with
  | none => .error .json
  | some f => f.check 0 config

end LoanScope
