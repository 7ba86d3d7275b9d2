/-! Names numbered in the order of their first mention. -/

namespace LoanScope

/-- Distinct names; the symbol of a name is its position. -/
structure NameTable where
  names : List String
  nodup : names.Nodup
deriving DecidableEq

namespace NameTable

def empty : NameTable := ⟨[], .nil⟩

instance : Inhabited NameTable := ⟨empty⟩

def size (t : NameTable) : Nat := t.names.length

/-- The symbol of a name already in the table. -/
def get? (t : NameTable) (name : String) : Option Nat := t.names.idxOf? name

/-- The name of a symbol. -/
def resolve? (t : NameTable) (symbol : Nat) : Option String := t.names[symbol]?

/-- Adds `name` at the end unless it is there. -/
def mention (t : NameTable) (name : String) : NameTable :=
  if h : name ∈ t.names then t
  else ⟨t.names ++ [name], List.nodup_append.mpr ⟨t.nodup, by simp, by
    intro a ha b hb
    simp only [List.mem_singleton] at hb
    exact fun hab => h (hb ▸ hab ▸ ha)⟩⟩

/-- The symbol of `name`, which is added if it is new. -/
def intern (t : NameTable) (name : String) : Nat × NameTable :=
  ((t.get? name).getD t.size, t.mention name)

def ofList (names : List String) : NameTable :=
  names.foldl mention empty

/-- One line on the table's size. -/
def summary (t : NameTable) : String := s!"Interner \x7b len: {t.size} \x7d"

end NameTable

end LoanScope
