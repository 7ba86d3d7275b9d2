import LoanScope.Config
import LoanScope.Toml.Reader

/-! Configuration files. -/

namespace LoanScope

/-- A policy by its name, or as a table whose only key is the name of one and holds an empty
table. -/
def JoinPolicy.ofToml? : Toml → Option JoinPolicy
  | .string s => ofName? s
  | .inline [(s, v)] | .table _ [(s, v)] =>
      match v with
      | .inline [] | .table _ [] => ofName? s
      | _ => none
  | _ => none

def Toml.bool? : Toml → Option Bool
  | .bool b => some b
  | _ => none

/-- The value of a key, or what it is without the key. -/
def Toml.Entries.getD? {α : Type} (es : Toml.Entries) (key : String) (default : α)
    (f : Toml → Option α) : Option α :=
  match es.lookup key with
  | none => some default
  | some v => f v

namespace Config

/-- The configuration of a document; keys it does not know are ignored. -/
def ofToml? (es : Toml.Entries) : Option Config := do
  some
    { joinPolicy := ← es.getD? "join_policy" Config.default.joinPolicy JoinPolicy.ofToml?
      killLoansOnOverwrite :=
        ← es.getD? "kill_loans_on_overwrite" Config.default.killLoansOnOverwrite Toml.bool?
      staticCoversAllPoints :=
        ← es.getD? "static_covers_all_points" Config.default.staticCoversAllPoints Toml.bool? }

def parse? (text : String) : Option Config := do ofToml? (← Toml.parse? text)

end Config

end LoanScope
