/-! Choices of the analysis. -/

namespace LoanScope

/-- How the loans of several predecessors are joined. -/
inductive JoinPolicy where
  /-- A loan is in scope if it arrives on some path. -/
  | union
  /-- A loan is in scope only if it arrives on every path. -/
  | intersection
deriving DecidableEq, Repr

def JoinPolicy.name : JoinPolicy → String
  | union => "union"
  | intersection => "intersection"

def JoinPolicy.ofName? (s : String) : Option JoinPolicy :=
  [union, intersection].find? (·.name = s)

structure Config where
  joinPolicy : JoinPolicy
  /-- A shallow write to a place ends the loans of what is reached from it. -/
  killLoansOnOverwrite : Bool
  /-- The region `'static` contains every node. -/
  staticCoversAllPoints : Bool
deriving DecidableEq, Repr

def Config.default : Config := ⟨.union, true, true⟩

instance : Inhabited Config := ⟨.default⟩

end LoanScope
