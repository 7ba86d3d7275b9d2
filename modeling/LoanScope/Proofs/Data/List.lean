import Mathlib.Data.List.Infix
import Mathlib.Data.List.Nodup

/-! Positions in lists and arrays that only grow at their ends, and lists that split in one way. -/

namespace LoanScope

variable {α β : Type}

/-! ### Positions -/

theorem lt_length_of_getElem? {xs : List α} {i : Nat} {x : α}
    (hx : xs[i]? = some x) : i < xs.length :=
  (List.getElem?_eq_some_iff.mp hx).1

theorem getElem?_of_prefix {xs ys : List α} (h : xs <+: ys) {i : Nat} {x : α}
    (hx : xs[i]? = some x) : ys[i]? = some x := by
  obtain ⟨hi, rfl⟩ := List.getElem?_eq_some_iff.mp hx
  exact List.prefix_iff_getElem?.mp h i hi

theorem getElem?_of_lt_length {xs ys : List α} (h : xs <+: ys) {i : Nat} {y : α}
    (hi : i < xs.length) (hy : ys[i]? = some y) : xs[i]? = some y := by
  rw [List.getElem?_eq_getElem hi, ← hy, List.prefix_iff_getElem?.mp h i hi]

/-- An element of a list with one more at its end. -/
theorem getElem?_concat_eq_some {xs : List α} {x y : α} {k : Nat} :
    (xs ++ [x])[k]? = some y ↔ xs[k]? = some y ∨ k = xs.length ∧ y = x := by
  rcases Nat.lt_trichotomy k xs.length with hlt | rfl | hgt
  · simp [List.getElem?_append_left hlt, Nat.ne_of_lt hlt]
  · simp [eq_comm]
  · have hnone : (xs ++ [x])[k]? = none := List.getElem?_eq_none (by simp; omega)
    simp [hnone, Nat.le_of_lt hgt, Nat.ne_of_gt hgt]

/-- What is found in an array is found in every longer one. -/
theorem getElem?_of_toList_isPrefix {xs ys : Array α} (h : xs.toList <+: ys.toList) {i : Nat}
    {a : α} (hi : xs[i]? = some a) : ys[i]? = some a := by
  rw [← Array.getElem?_toList] at hi ⊢
  exact getElem?_of_prefix h hi

theorem getElem?_of_append {xs ys : Array α} {later : List α}
    (h : ys.toList = xs.toList ++ later) {i : Nat} {a : α} (hi : ys[i]? = some a) :
    xs[i]? = some a ∨ ∃ j, i = xs.size + j ∧ later[j]? = some a := by
  rw [← Array.getElem?_toList, h] at hi
  by_cases hlt : i < xs.size
  · rw [List.getElem?_append_left (by simpa using hlt), Array.getElem?_toList] at hi
    exact .inl hi
  · rw [List.getElem?_append_right (by simpa using hlt), Array.length_toList] at hi
    exact .inr ⟨i - xs.size, by omega, hi⟩

/-- Numbers that are positions are all numbers up to the size. -/
theorem map_toList_eq_range {number : α → Nat} {xs : Array α}
    (h : ∀ (i : Nat) (a : α), xs[i]? = some a → number a = i) :
    xs.toList.map number = List.range xs.size := by
  refine List.ext_getElem? fun i => ?_
  rw [List.getElem?_map, Array.getElem?_toList]
  cases hi : xs[i]? with
  | none => simp [Array.getElem?_eq_none_iff.mp hi]
  | some a => simp [h i a hi, (Array.getElem?_eq_some_iff.mp hi).1]

/-! ### Parts -/

theorem isPrefix_flatMap_take {xs : List α} {i : Nat} {x : α} (hx : xs[i]? = some x)
    (g : α → List β) : (xs.take i).flatMap g ++ g x <+: xs.flatMap g := by
  have hprefix := (List.take_prefix (i + 1) xs).flatMap g
  rwa [List.take_add_one, hx, Option.toList_some, List.flatMap_append,
    List.flatMap_singleton] at hprefix

theorem map_eq_self_iff {f : α → α} {p : α → Bool} (h : ∀ a, f a = a ↔ p a) {as : List α} :
    as.map f = as ↔ ∀ a ∈ as, p a := by
  induction as with
  | nil => simp
  | cons a rest ih => simp [h, ih]

/-- What occurs once in lists in a row is in exactly one of them. -/
theorem existsUnique_of_nodup_flatMap {g : α → List β} {as : List α} {x : β}
    (hnodup : (as.flatMap g).Nodup) (hx : x ∈ as.flatMap g) :
    ∃! i : Nat, ∃ a, as[i]? = some a ∧ x ∈ g a := by
  induction as with
  | nil => simp at hx
  | cons a rest ih =>
      rw [List.flatMap_cons, List.nodup_append] at hnodup
      obtain ⟨-, hrest, hdisjoint⟩ := hnodup
      by_cases hfirst : x ∈ g a
      · refine ⟨0, ⟨a, rfl, hfirst⟩, ?_⟩
        rintro i ⟨a', ha', hx'⟩
        cases i with
        | zero => rfl
        | succ i =>
            rw [List.getElem?_cons_succ] at ha'
            have hlater := List.mem_flatMap.mpr ⟨a', List.mem_of_getElem? ha', hx'⟩
            exact absurd rfl (hdisjoint x hfirst x hlater)
      · rw [List.flatMap_cons, List.mem_append, or_iff_right hfirst] at hx
        obtain ⟨i, hi, hunique⟩ := ih hrest hx
        refine ⟨i + 1, hi, ?_⟩
        rintro j ⟨a', ha', hx'⟩
        cases j with
        | zero =>
            cases ha'
            exact absurd hx' hfirst
        | succ j => rw [hunique j ⟨a', ha', hx'⟩]

/-- The last element of a kind splits a list in one way only. -/
theorem eq_of_append_cons_eq_of_not {P : α → Prop} {a a' : α} {before before' after after' : List α}
    (h : before ++ a :: after = before' ++ a' :: after') (ha : P a) (ha' : P a')
    (hafter : ∀ b ∈ after, ¬ P b) (hafter' : ∀ b ∈ after', ¬ P b) :
    before = before' ∧ a = a' ∧ after = after' := by
  rcases List.append_eq_append_iff.mp h with ⟨mid, rfl, hmid⟩ | ⟨mid, rfl, hmid⟩
  · cases mid with
    | nil => simpa using hmid
    | cons b mid =>
        obtain ⟨-, rfl⟩ := List.cons.inj hmid
        exact absurd ha' (hafter a' (by simp))
  · cases mid with
    | nil => simpa [eq_comm] using hmid
    | cons b mid =>
        obtain ⟨-, rfl⟩ := List.cons.inj hmid
        exact absurd ha (hafter' a (by simp))

/-- The last occurrence of an element splits a list in one way only. -/
theorem eq_of_append_cons_eq {a : α} {before before' after after' : List α}
    (h : before ++ a :: after = before' ++ a :: after') (hafter : a ∉ after)
    (hafter' : a ∉ after') :
    before = before' ∧ after = after' := by
  obtain ⟨hbefore, -, hrest⟩ := eq_of_append_cons_eq_of_not (P := (· = a)) h rfl rfl
    (fun b hb hba => hafter (hba ▸ hb)) (fun b hb hba => hafter' (hba ▸ hb))
  exact ⟨hbefore, hrest⟩

end LoanScope
