/-! Finite sets of numeric ids, kept as their strictly ascending lists, so that equal sets are equal
values. -/

namespace LoanScope

/-- Puts `a` in its place in an ascending list, once. -/
def insertAscending (a : Nat) : List Nat → List Nat
  | [] => [a]
  | b :: l =>
      if a < b then a :: b :: l
      else if a = b then b :: l
      else b :: insertAscending a l

theorem mem_insertAscending {a x : Nat} {l : List Nat} :
    x ∈ insertAscending a l ↔ x = a ∨ x ∈ l := by
  induction l with
  | nil => simp [insertAscending]
  | cons b l ih =>
      simp only [insertAscending]
      split
      · simp
      · split
        · subst a; simp
        · simp only [List.mem_cons, ih]
          constructor
          · rintro (h | h | h) <;> simp [h]
          · rintro (h | h | h) <;> simp [h]

theorem insertAscending_pairwise {a : Nat} {l : List Nat} (h : l.Pairwise (· < ·)) :
    (insertAscending a l).Pairwise (· < ·) := by
  induction l with
  | nil => simp [insertAscending]
  | cons b l ih =>
      have hb := List.pairwise_cons.mp h
      simp only [insertAscending]
      split
      · rename_i hab
        refine List.pairwise_cons.mpr ⟨?_, h⟩
        intro c hc
        rcases List.mem_cons.mp hc with rfl | hc
        · exact hab
        · exact Nat.lt_trans hab (hb.1 c hc)
      · split
        · exact h
        · refine List.pairwise_cons.mpr ⟨?_, ih hb.2⟩
          intro c hc
          rcases mem_insertAscending.mp hc with rfl | hc
          · omega
          · exact hb.1 c hc

/-- A finite set of ids. -/
structure IdSet where
  toList : List Nat
  ascending : toList.Pairwise (· < ·)
deriving DecidableEq

namespace IdSet

instance : Membership Nat IdSet := ⟨fun s a => a ∈ s.toList⟩

instance (a : Nat) (s : IdSet) : Decidable (a ∈ s) :=
  inferInstanceAs (Decidable (a ∈ s.toList))

@[simp] theorem mem_toList {a : Nat} {s : IdSet} : a ∈ s.toList ↔ a ∈ s := Iff.rfl

def empty : IdSet := ⟨[], .nil⟩

instance : EmptyCollection IdSet := ⟨empty⟩
instance : Inhabited IdSet := ⟨empty⟩

def card (s : IdSet) : Nat := s.toList.length

def insert (a : Nat) (s : IdSet) : IdSet :=
  ⟨insertAscending a s.toList, insertAscending_pairwise s.ascending⟩

def ofList (l : List Nat) : IdSet :=
  l.foldl (fun s a => s.insert a) ∅

def union (s t : IdSet) : IdSet :=
  t.toList.foldl (fun s a => s.insert a) s

def filter (p : Nat → Bool) (s : IdSet) : IdSet :=
  ⟨s.toList.filter p, s.ascending.filter p⟩

def inter (s t : IdSet) : IdSet := s.filter (· ∈ t)

def diff (s t : IdSet) : IdSet := s.filter (· ∉ t)

@[simp] theorem not_mem_empty (a : Nat) : a ∉ (∅ : IdSet) := List.not_mem_nil

@[simp] theorem mem_insert {a x : Nat} {s : IdSet} : x ∈ s.insert a ↔ x = a ∨ x ∈ s :=
  mem_insertAscending

theorem mem_foldl_insert {x : Nat} {l : List Nat} {s : IdSet} :
    x ∈ l.foldl (fun s a => s.insert a) s ↔ x ∈ s ∨ x ∈ l := by
  induction l generalizing s with
  | nil => simp
  | cons a l ih =>
      simp only [List.foldl_cons, ih, mem_insert, List.mem_cons]
      constructor
      · rintro ((h | h) | h) <;> simp [h]
      · rintro (h | h | h) <;> simp [h]

@[simp] theorem mem_ofList {x : Nat} {l : List Nat} : x ∈ ofList l ↔ x ∈ l := by
  simp [ofList, mem_foldl_insert]

@[simp] theorem mem_union {x : Nat} {s t : IdSet} : x ∈ s.union t ↔ x ∈ s ∨ x ∈ t := by
  simp [union, mem_foldl_insert]

@[simp] theorem mem_filter {x : Nat} {p : Nat → Bool} {s : IdSet} :
    x ∈ s.filter p ↔ x ∈ s ∧ p x := by
  simp [filter, ← mem_toList]

@[simp] theorem mem_inter {x : Nat} {s t : IdSet} : x ∈ s.inter t ↔ x ∈ s ∧ x ∈ t := by
  simp [inter]

@[simp] theorem mem_diff {x : Nat} {s t : IdSet} : x ∈ s.diff t ↔ x ∈ s ∧ x ∉ t := by
  simp [diff]

end IdSet

end LoanScope
