import LoanScope.IdSet
import Mathlib.Data.Finset.Card
import Mathlib.Data.List.Perm.Basic

/-! Sets of ids as finite sets: equality is equality of members, and sets that grow get larger. -/

namespace LoanScope.IdSet

theorem nodup_toList (s : IdSet) : s.toList.Nodup :=
  s.ascending.imp fun h => Nat.ne_of_lt h

/-- An ascending list is determined by its members. -/
theorem ext {s t : IdSet} (h : ∀ a, a ∈ s ↔ a ∈ t) : s = t := by
  have hperm : s.toList.Perm t.toList :=
    (List.perm_ext_iff_of_nodup s.nodup_toList t.nodup_toList).mpr h
  have heq : s.toList = t.toList :=
    hperm.eq_of_pairwise (fun a b _ _ hab hba => absurd hab (Nat.lt_asymm hba))
      s.ascending t.ascending
  cases s
  cases t
  cases heq
  rfl

def toFinset (s : IdSet) : Finset Nat := s.toList.toFinset

@[simp] theorem mem_toFinset {s : IdSet} {a : Nat} : a ∈ s.toFinset ↔ a ∈ s :=
  List.mem_toFinset

theorem toFinset_injective : Function.Injective toFinset := by
  intro s t h
  apply ext
  intro a
  rw [← mem_toFinset, h, mem_toFinset]

@[simp] theorem card_toFinset (s : IdSet) : s.toFinset.card = s.card :=
  List.toFinset_card_of_nodup s.nodup_toList

theorem card_lt_card {s t : IdSet} (hsub : ∀ a ∈ s, a ∈ t) (hne : s ≠ t) : s.card < t.card := by
  rw [← card_toFinset, ← card_toFinset]
  apply Finset.card_lt_card
  refine Finset.ssubset_iff_subset_ne.mpr ⟨?_, fun h => hne (toFinset_injective h)⟩
  intro a ha
  exact mem_toFinset.mpr (hsub a (mem_toFinset.mp ha))

/-- A set that has all members of another is the same set exactly if it has as many. -/
theorem card_eq_iff_of_subset {s t : IdSet} (hsub : ∀ a ∈ s, a ∈ t) : t.card = s.card ↔ t = s := by
  constructor
  · intro hcard
    by_contra hne
    exact Nat.ne_of_gt (card_lt_card hsub (Ne.symm hne)) hcard
  · rintro rfl
    rfl

theorem insert_eq_self_iff {s : IdSet} {a : Nat} : s.insert a = s ↔ a ∈ s := by
  constructor
  · intro h
    rw [← h]
    exact mem_insert.mpr (.inl rfl)
  · intro h
    apply ext
    intro b
    rw [mem_insert]
    exact ⟨fun hb => hb.elim (· ▸ h) id, .inr⟩

theorem union_eq_self_iff {s t : IdSet} : s.union t = s ↔ ∀ a ∈ t, a ∈ s := by
  constructor
  · intro h a ha
    rw [← h]
    exact mem_union.mpr (.inr ha)
  · intro h
    apply ext
    intro a
    rw [mem_union]
    exact ⟨fun ha => ha.elim id (h a), .inl⟩

/-- Ids below a bound are no more than the bound. -/
theorem card_le_of_lt {s : IdSet} {bound : Nat} (h : ∀ a ∈ s, a < bound) : s.card ≤ bound := by
  rw [← card_toFinset, ← Finset.card_range bound]
  apply Finset.card_le_card
  intro a ha
  exact Finset.mem_range.mpr (h a (mem_toFinset.mp ha))

end LoanScope.IdSet
