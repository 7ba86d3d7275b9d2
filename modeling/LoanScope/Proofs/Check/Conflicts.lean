import LoanScope.Proofs.Check.InScope
import Mathlib.Data.Set.Basic

/-! Conflicts of accesses with loans, in terms of the places that are touched. Places form a tree:
those reached from a place by dereferences and members are the nodes below it, and two places have
something below both of them only if one of the two is below the other. -/

namespace LoanScope

namespace Place

/-! ### Places below a place -/

/-- `q` is reached from `p` by dereferences and members, of which there may be none. -/
inductive Extends (p : Place) : Place → Prop where
  | refl : Extends p p
  | deref {q : Place} (h : Extends p q) : Extends p q.deref
  | member {q : Place} (h : Extends p q) (field : String) : Extends p (q.member field)

/-- All places that are reached from a place, itself included. -/
def extent (p : Place) : Set Place := {q | p.Extends q}

variable {p q r : Place}

@[simp] theorem isPrefixOf_var {v : Variable} : p.isPrefixOf (var v) ↔ p = var v := by
  simp [isPrefixOf, prefixes]

@[simp] theorem isPrefixOf_deref : p.isPrefixOf q.deref ↔ p = q.deref ∨ p.isPrefixOf q := by
  simp [isPrefixOf, prefixes]

@[simp] theorem isPrefixOf_member {field : String} :
    p.isPrefixOf (q.member field) ↔ p = q.member field ∨ p.isPrefixOf q := by
  simp [isPrefixOf, prefixes]

theorem head?_prefixes (p : Place) : p.prefixes.head? = some p := by
  cases p <;> rfl

theorem isPrefixOf_refl (p : Place) : p.isPrefixOf p := by
  cases p <;> simp

theorem isPrefixOf_iff_extends : p.isPrefixOf q ↔ p.Extends q := by
  constructor
  · intro h
    induction q with
    | var v =>
        rw [isPrefixOf_var.mp h]
        exact .refl
    | deref q ih =>
        rcases isPrefixOf_deref.mp h with rfl | hbase
        · exact .refl
        · exact .deref (ih hbase)
    | member q field ih =>
        rcases isPrefixOf_member.mp h with rfl | hbase
        · exact .refl
        · exact .member (ih hbase) field
  · intro h
    induction h with
    | refl => exact p.isPrefixOf_refl
    | deref _ ih => exact isPrefixOf_deref.mpr (.inr ih)
    | member _ field ih => exact isPrefixOf_member.mpr (.inr ih)

theorem mem_extent : q ∈ p.extent ↔ p.isPrefixOf q := isPrefixOf_iff_extends.symm

/-! ### The order of places -/

theorem Extends.suffix (h : p.Extends q) : p.prefixes <:+ q.prefixes := by
  induction h with
  | refl => exact List.suffix_refl _
  | deref _ ih => exact ih.trans (List.suffix_cons _ _)
  | member _ field ih => exact ih.trans (List.suffix_cons _ _)

/-- The prefixes of a place are its branch of the tree, and those of its bases are the ends of that
branch. -/
theorem isPrefixOf_iff_suffix : p.isPrefixOf q ↔ p.prefixes <:+ q.prefixes := by
  constructor
  · intro h
    exact (isPrefixOf_iff_extends.mp h).suffix
  · intro h
    have hself : p ∈ p.prefixes := List.mem_of_mem_head? p.head?_prefixes
    simpa [isPrefixOf] using h.subset hself

theorem isPrefixOf_trans (hpq : p.isPrefixOf q) (hqr : q.isPrefixOf r) : p.isPrefixOf r := by
  rw [isPrefixOf_iff_suffix] at *
  exact hpq.trans hqr

theorem isPrefixOf_antisymm (hpq : p.isPrefixOf q) (hqp : q.isPrefixOf p) : p = q := by
  rw [isPrefixOf_iff_suffix] at hpq hqp
  have hbranch : p.prefixes = q.prefixes :=
    hpq.eq_of_length (Nat.le_antisymm hpq.length_le hqp.length_le)
  have hhead : some p = some q := by rw [← head?_prefixes, hbranch, head?_prefixes]
  exact Option.some.inj hhead

/-- Two prefixes of one place lie on its branch, so one of them is a prefix of the other. -/
theorem isPrefixOf_total (hpr : p.isPrefixOf r) (hqr : q.isPrefixOf r) :
    p.isPrefixOf q ∨ q.isPrefixOf p := by
  simp only [isPrefixOf_iff_suffix] at *
  exact List.suffix_or_suffix_of_suffix hpr hqr

theorem overlaps_iff : p.overlaps q ↔ p.isPrefixOf q ∨ q.isPrefixOf p := by
  simp [overlaps]

theorem Extends.root_eq (h : p.Extends q) : q.root = p.root := by
  induction h with
  | refl => rfl
  | deref _ ih => exact ih
  | member _ field ih => exact ih

theorem root_eq_of_overlaps (h : p.overlaps q) : p.root = q.root := by
  rcases overlaps_iff.mp h with hpq | hqp
  · exact (isPrefixOf_iff_extends.mp hpq).root_eq.symm
  · exact (isPrefixOf_iff_extends.mp hqp).root_eq

/-- Whatever lies below two places makes them comparable, and then the lower one lies below both. -/
theorem extent_inter_nonempty_iff : (p.extent ∩ q.extent).Nonempty ↔ p.overlaps q := by
  rw [overlaps_iff]
  constructor
  · rintro ⟨r, hp, hq⟩
    exact isPrefixOf_total (mem_extent.mp hp) (mem_extent.mp hq)
  · rintro (hpq | hqp)
    · exact ⟨q, mem_extent.mpr hpq, mem_extent.mpr q.isPrefixOf_refl⟩
    · exact ⟨p, mem_extent.mpr p.isPrefixOf_refl, mem_extent.mpr hqp⟩

end Place

namespace Access

/-! ### What an access touches -/

/-- A deep access touches all that is reached from its place, a shallow one the place alone. -/
def touched (a : Access) : Set Place :=
  match a.reach with
  | .deep => a.place.extent
  | .shallow => {a.place}

variable {a : Access} {l : Loan}

theorem touches_iff {p : Place} : a.touches p ↔ (a.touched ∩ p.extent).Nonempty := by
  cases hreach : a.reach with
  | deep => simp only [touches, touched, hreach, Place.extent_inter_nonempty_iff]
  | shallow =>
      simp only [touches, touched, hreach, Set.singleton_inter_nonempty, Place.mem_extent]

theorem conflicts_iff :
    a.conflicts l ↔ (a.touched ∩ l.place.extent).Nonempty ∧
      (a.mode = .write ∨ l.kind = .mutable) := by
  simp [conflicts, touches_iff]

/-- A shallow write is at odds with the loans of its place and of the places that this one is
reached from. -/
theorem conflicts_iff_of_isShallowWrite (h : a.isShallowWrite) :
    a.conflicts l ↔ l.place.isPrefixOf a.place := by
  obtain ⟨hmode, hreach⟩ : a.mode = .write ∧ a.reach = .shallow := by simpa [isShallowWrite] using h
  simp [conflicts, touches, hmode, hreach]

/-- An access is at odds with a loan exactly if some place that it touches is reached from the lent
place, and one of the two writes. A node ends the loans of the places that are reached from one that
it writes shallowly. So a shallow write is at odds with a loan or ends it exactly if the places
overlap, and both only for the lent place itself. Being a prefix orders places as a tree, and places
that overlap belong to one variable. -/
theorem conflicts_exact :
    (∀ (a : Access) (l : Loan), a.conflicts l ↔
      (a.touched ∩ l.place.extent).Nonempty ∧ (a.mode = .write ∨ l.kind = .mutable)) ∧
    (∀ (c : Check) (n : NodeId) (id : LoanId), id ∈ c.kills n ↔
      ∃ l ∈ c.facts.loans, l.id = id ∧ c.config.killLoansOnOverwrite ∧
        ∃ node, c.facts.nodes[n]? = some node ∧
          ∃ a ∈ node.accesses, a.isShallowWrite ∧ a.place.isPrefixOf l.place) ∧
    (∀ (a : Access) (l : Loan), a.isShallowWrite →
      (a.place.overlaps l.place ↔ a.conflicts l ∨ a.place.isPrefixOf l.place) ∧
      (a.conflicts l ∧ a.place.isPrefixOf l.place ↔ a.place = l.place)) ∧
    (∀ p : Place, p.isPrefixOf p) ∧
    (∀ p q r : Place, p.isPrefixOf q → q.isPrefixOf r → p.isPrefixOf r) ∧
    (∀ p q : Place, p.isPrefixOf q → q.isPrefixOf p → p = q) ∧
    (∀ p q r : Place, p.isPrefixOf r → q.isPrefixOf r → p.isPrefixOf q ∨ q.isPrefixOf p) ∧
    ∀ p q : Place, p.overlaps q → p.root.decl = q.root.decl := by
  refine ⟨fun a l => conflicts_iff, fun c n id => Check.mem_kills_iff, ?_, Place.isPrefixOf_refl,
    fun p q r => Place.isPrefixOf_trans, fun p q => Place.isPrefixOf_antisymm,
    fun p q r => Place.isPrefixOf_total, ?_⟩
  · intro a l hwrite
    rw [conflicts_iff_of_isShallowWrite hwrite, Place.overlaps_iff, or_comm]
    refine ⟨Iff.rfl, ?_, ?_⟩
    · rintro ⟨hlent, hended⟩
      exact Place.isPrefixOf_antisymm hended hlent
    · intro hsame
      rw [hsame]
      exact ⟨l.place.isPrefixOf_refl, l.place.isPrefixOf_refl⟩
  · intro p q h
    rw [Place.root_eq_of_overlaps h]

/-- A shared loan of a place. -/
def lent (p : Place) : Loan :=
  ⟨0, 1, .shared, .builtin .int false, p, .builtin .int false, 1, 0, .detached 0⟩

/-- To write `x` is to end a loan of `*x` and not to be at odds with it; for a write of `*x` and a
loan of `x` it is the other way round. -/
theorem conflicts_exact_pointer :
    let x := Place.var ⟨0, "x"⟩
    (∀ p, (Access.mk p .write .shallow).isShallowWrite) ∧
    x.isPrefixOf x.deref ∧ ¬ (Access.mk x .write .shallow).conflicts (lent x.deref) ∧
    (Access.mk x.deref .write .shallow).conflicts (lent x) ∧ ¬ x.deref.isPrefixOf x := by
  intro x
  have hwrite : ∀ p, (Access.mk p .write .shallow).isShallowWrite := fun _ => rfl
  obtain ⟨-, -, hshallow, -⟩ := conflicts_exact
  have hended : x.isPrefixOf x.deref := by decide
  have hnot : ¬ x.deref.isPrefixOf x := by decide
  obtain ⟨-, hboth⟩ := hshallow ⟨x, .write, .shallow⟩ (lent x.deref) (hwrite x)
  obtain ⟨heither, -⟩ := hshallow ⟨x.deref, .write, .shallow⟩ (lent x) (hwrite x.deref)
  refine ⟨hwrite, hended, ?_, ?_, hnot⟩
  · intro hodds
    exact absurd (hboth.mp ⟨hodds, hended⟩) (by decide)
  · exact (heither.mp (by decide)).resolve_right hnot

end Access

end LoanScope
