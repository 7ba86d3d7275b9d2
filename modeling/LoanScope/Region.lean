import LoanScope.Graph
import LoanScope.IdSet
import LoanScope.Ty

/-! Regions: named sets of graph nodes that only grow. Region `0` is `'static`. -/

namespace LoanScope

/-- A declaration and an expression, by their positions. -/
abbrev DeclId := Nat
abbrev ExprId := Nat

inductive RegionKind where
  | universal | existential
deriving DecidableEq, Repr

/-- What a region was made for. -/
inductive Site where
  | param (decl : DeclId)
  | decl (decl : DeclId)
  | borrow (expr : ExprId)
deriving DecidableEq, Repr

structure Region where
  id : RegionId
  kind : RegionKind
  name : String
  site : Option Site
  points : IdSet
deriving DecidableEq

/-- Whether the region belongs to the type of a parameter. -/
def Region.isParam (r : Region) : Bool :=
  match r.site with
  | some (.param _) => true
  | _ => false

/-- The regions of a function, in the order in which they were made. -/
structure Regions where
  toList : List Region
deriving DecidableEq

namespace Regions

/-- The id of the region that outlives every call. -/
abbrev static : RegionId := 0

def initial : Regions := ⟨[⟨static, .universal, "static", none, ∅⟩]⟩

instance : Inhabited Regions := ⟨initial⟩

def size (rs : Regions) : Nat := rs.toList.length

def get? (rs : Regions) (r : RegionId) : Option Region := rs.toList[r]?

/-- The points of a region; a region that does not exist has none. -/
def points (rs : Regions) (r : RegionId) : IdSet := ((rs.get? r).map Region.points).getD ∅

/-- Adds an empty region at the end, with the next id. Without a name it is called by its id. -/
def fresh (rs : Regions) (kind : RegionKind) (name : Option String) (site : Option Site) :
    Regions :=
  let id := rs.size
  ⟨rs.toList ++ [⟨id, kind, name.getD (toString id), site, ∅⟩]⟩

/-- Adds `n` regions of one site. -/
def extend (rs : Regions) (site : Site) : Nat → Regions
  | 0 => rs
  | n + 1 => (rs.extend site n).fresh .existential none (some site)

def setPoints (rs : Regions) (r : RegionId) (points : IdSet) : Regions :=
  ⟨rs.toList.modify r fun region => { region with points }⟩

/-- Adds a point to a region. The answer is that of the set: the point was not in it. -/
def addPoint (rs : Regions) (r : RegionId) (p : NodeId) : Regions × Bool :=
  match rs.get? r with
  | none => (rs, false)
  | some region => (rs.setPoints r (region.points.insert p), decide (p ∉ region.points))

/-- Gives `longer` every point of `shorter`. The answer compares the number of points after with
the number before. -/
def union (rs : Regions) (longer shorter : RegionId) : Regions × Bool :=
  if longer = shorter then (rs, false)
  else
    match rs.get? shorter with
    | none => (rs, false)
    | some incoming =>
        match rs.get? longer with
        | none => (rs, false)
        | some target =>
            let points := target.points.union incoming.points
            (rs.setPoints longer points, points.card != target.points.card)

/-- The name in constraint texts. -/
def nameOf (rs : Regions) (r : RegionId) : String :=
  ((rs.get? r).map Region.name).getD "<unknown>"

end Regions

end LoanScope
