import LoanScope.Region

/-! Constraints on regions, and the regions that satisfy them. -/

namespace LoanScope

inductive Constraint where
  /-- Every point of `shorter` is in `longer`. -/
  | outlives (longer shorter : RegionId) (point : NodeId)
  /-- The region contains the point. -/
  | live (region : RegionId) (point : NodeId)
deriving DecidableEq, Repr

namespace Constraint

def point : Constraint → NodeId
  | outlives _ _ p => p
  | live _ p => p

/-- Grows the region that the constraint speaks of, and tells whether it changed. -/
def apply (c : Constraint) (rs : Regions) : Regions × Bool :=
  match c with
  | outlives longer shorter _ => rs.union longer shorter
  | live r p => rs.addPoint r p

def text (rs : Regions) : Constraint → String
  | outlives longer shorter p => s!"'{rs.nameOf longer}: '{rs.nameOf shorter} @ {p}"
  | live r p => s!"'{rs.nameOf r} live at {p}"

end Constraint

namespace Regions

/-- Applies a constraint after others, and tells whether any of them changed a region. -/
def passStep (state : Regions × Bool) (c : Constraint) : Regions × Bool :=
  let next := c.apply state.1
  (next.1, state.2 || next.2)

/-- Applies every constraint once, in order. -/
def pass (cs : List Constraint) (rs : Regions) : Regions × Bool :=
  cs.foldl passStep (rs, false)

/-- More passes than can change anything: each changing pass adds a point to some region, and the
points come from the regions or the constraints. -/
def passBound (cs : List Constraint) (rs : Regions) : Nat :=
  rs.size * ((rs.toList.flatMap (·.points.toList)).length + cs.length)

/-- Passes until one changes nothing, counting that one. -/
def solveWithin (cs : List Constraint) : Nat → Regions → Regions × Nat
  | 0, rs => (rs, 1)
  | fuel + 1, rs =>
      let next := pass cs rs
      if next.2 then
        let solved := solveWithin cs fuel next.1
        (solved.1, solved.2 + 1)
      else (next.1, 1)

/-- Grows the regions until all constraints hold; also the number of passes this took. -/
def solve (cs : List Constraint) (rs : Regions) : Regions × Nat :=
  solveWithin cs (passBound cs rs) rs

end Regions

end LoanScope
