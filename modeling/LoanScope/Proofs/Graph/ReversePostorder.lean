import LoanScope.Proofs.Graph.Walk
import Mathlib.Data.List.Perm.Subperm
import Mathlib.Data.List.Range

/-! The reverse postorder lists the nodes that the start reaches, each of them once, and each node
but the start after a node that leads to it. -/

namespace LoanScope.Graph

/-! ### Lists in which nodes are led to -/

/-- Every node of the list is fine by itself or has a predecessor before it in the list. -/
def Led (g : Graph) (fine : NodeId → Prop) : List NodeId → Prop
  | [] => True
  | n :: rest => fine n ∧ g.Led (fun m => fine m ∨ (n, m) ∈ g.edges) rest

namespace Led

variable {g : Graph} {fine fine' : NodeId → Prop}

theorem mono {l : List NodeId} (h : g.Led fine l) (hle : ∀ n, fine n → fine' n) :
    g.Led fine' l := by
  induction l generalizing fine fine' with
  | nil => trivial
  | cons n rest ih =>
      refine ⟨hle n h.1, ih h.2 ?_⟩
      rintro m (hm | hm)
      · exact .inl (hle m hm)
      · exact .inr hm

theorem append {l r : List NodeId} (hl : g.Led fine l) (hr : g.Led fine r) :
    g.Led fine (l ++ r) := by
  induction l generalizing fine with
  | nil => exact hr
  | cons n rest ih => exact ⟨hl.1, ih hl.2 (hr.mono fun m hm => .inl hm)⟩

theorem of_forall {l : List NodeId} (h : ∀ n ∈ l, fine n) : g.Led fine l := by
  induction l generalizing fine with
  | nil => trivial
  | cons n rest ih =>
      exact ⟨h n (by simp), ih fun m hm => .inl (h m (by simp [hm]))⟩

end Led

/-! ### What a search finds -/

/-- A search from `roots` goes from `s` to `t` and meets the nodes of `new`. -/
structure Finds (g : Graph) (roots : List NodeId) (s t : Search) (new : List NodeId) : Prop where
  done_eq : t.done = new ++ s.done
  seen_perm : t.seen.Perm (new ++ s.seen)
  roots_seen : ∀ n ∈ roots, n ∈ t.seen
  closed : ∀ m ∈ new, ∀ n ∈ g.succ m, n ∈ t.seen
  reached : ∀ m ∈ new, ∃ n ∈ roots, g.Reaches n m
  led : g.Led (· ∈ roots) new

/-- The nodes met are different nodes of the graph, and enough depth is left to meet the others. -/
structure Search.Fits (g : Graph) (fuel : Nat) (s : Search) : Prop where
  nodup : s.seen.Nodup
  inside : ∀ n ∈ s.seen, n < g.size
  fuel_le : g.size ≤ fuel + s.seen.length

theorem Search.Fits.mem_of_no_fuel {g : Graph} {s : Search} (h : s.Fits g 0) {n : NodeId}
    (hn : n < g.size) : n ∈ s.seen := by
  have hsub : s.seen ⊆ List.range g.size := fun m hm => List.mem_range.mpr (h.inside m hm)
  have hperm : s.seen.Perm (List.range g.size) := by
    apply (List.subperm_of_subset h.nodup hsub).perm_of_length_le
    simpa using h.fuel_le
  exact hperm.mem_iff.mpr (List.mem_range.mpr hn)

/-- Meeting a new node uses up one level of depth. -/
theorem Search.Fits.enter {g : Graph} {fuel : Nat} {s : Search} (h : s.Fits g (fuel + 1))
    {n : NodeId} (hn : n < g.size) (hnew : n ∉ s.seen) :
    Search.Fits g fuel { s with seen := n :: s.seen } := by
  refine ⟨List.nodup_cons.mpr ⟨hnew, h.nodup⟩, ?_, ?_⟩
  · intro m hm
    rcases List.mem_cons.mp hm with rfl | hm
    · exact hn
    · exact h.inside m hm
  · have := h.fuel_le
    simp only [List.length_cons]
    omega

namespace Finds

variable {g : Graph} {s t : Search} {new : List NodeId}

theorem mem_seen_iff {roots : List NodeId} (h : g.Finds roots s t new) {n : NodeId} :
    n ∈ t.seen ↔ n ∈ new ∨ n ∈ s.seen :=
  h.seen_perm.mem_iff.trans List.mem_append

theorem nothing (g : Graph) (s : Search) : g.Finds [] s s [] :=
  ⟨rfl, List.Perm.refl _, by simp, by simp, by simp, trivial⟩

theorem already {n : NodeId} (hn : n ∈ s.seen) : g.Finds [n] s s [] :=
  ⟨rfl, List.Perm.refl _, by simpa using hn, by simp, by simp, trivial⟩

/-- A search from one root followed by a search from others. -/
theorem cons {n : NodeId} {roots : List NodeId} {u : Search} {new' : List NodeId}
    (h : g.Finds [n] s t new) (h' : g.Finds roots t u new') :
    g.Finds (n :: roots) s u (new' ++ new) := by
  refine ⟨?_, ?_, ?_, ?_, ?_, ?_⟩
  · rw [h'.done_eq, h.done_eq, List.append_assoc]
  · refine h'.seen_perm.trans ?_
    rw [List.append_assoc]
    exact h.seen_perm.append_left new'
  · intro m hm
    rcases List.mem_cons.mp hm with rfl | hm
    · exact h'.mem_seen_iff.mpr (.inr (h.roots_seen m (by simp)))
    · exact h'.roots_seen m hm
  · intro m hm k hk
    rcases List.mem_append.mp hm with hm | hm
    · exact h'.closed m hm k hk
    · exact h'.mem_seen_iff.mpr (.inr (h.closed m hm k hk))
  · intro m hm
    rcases List.mem_append.mp hm with hm | hm
    · obtain ⟨r, hr, hreach⟩ := h'.reached m hm
      exact ⟨r, by simp [hr], hreach⟩
    · obtain ⟨r, hr, hreach⟩ := h.reached m hm
      exact ⟨r, List.mem_cons.mpr (.inl (by simpa using hr)), hreach⟩
  · refine (h'.led.mono ?_).append (h.led.mono ?_)
    · intro m hm; simp [hm]
    · intro m hm; simp [List.mem_singleton.mp hm]

/-- A node is done once the search from its successors is. -/
theorem node {n : NodeId} (h : g.Finds (g.succ n) { s with seen := n :: s.seen } t new) :
    g.Finds [n] s { t with done := n :: t.done } (n :: new) := by
  refine ⟨?_, ?_, ?_, ?_, ?_, ?_, ?_⟩
  · simp [h.done_eq]
  · exact h.seen_perm.trans List.perm_middle
  · intro m hm
    rw [List.mem_singleton.mp hm]
    exact h.mem_seen_iff.mpr (.inr (by simp))
  · intro m hm k hk
    rcases List.mem_cons.mp hm with rfl | hm
    · exact h.roots_seen k hk
    · exact h.closed m hm k hk
  · intro m hm
    refine ⟨n, by simp, ?_⟩
    rcases List.mem_cons.mp hm with rfl | hm
    · exact .refl
    · obtain ⟨k, hk, hreach⟩ := h.reached m hm
      exact .head (mem_succ.mp hk) hreach
  · simp
  · exact h.led.mono fun m hm => .inr (mem_succ.mp hm)

theorem fits {roots : List NodeId} {fuel : Nat} (h : g.Finds roots s t new)
    (hs : s.Fits g fuel) (hroots : ∀ n ∈ roots, n < g.size) (hnodup : t.seen.Nodup) :
    t.Fits g fuel := by
  refine ⟨hnodup, ?_, ?_⟩
  · intro m hm
    rcases h.mem_seen_iff.mp hm with hm | hm
    · obtain ⟨n, hn, hreach⟩ := h.reached m hm
      exact hreach.lt_size (hroots n hn)
    · exact hs.inside m hm
  · have hlen := h.seen_perm.length_eq
    have := hs.fuel_le
    simp only [List.length_append] at hlen
    omega

end Finds

/-! ### The search itself -/

/-- If a search below one node finds what it should, so does a search below several. -/
theorem foldl_visit_finds {g : Graph} {fuel : Nat}
    (ih : ∀ s n, s.Fits g fuel → n < g.size →
      (g.visit fuel s n).seen.Nodup ∧ ∃ new, g.Finds [n] s (g.visit fuel s n) new)
    (roots : List NodeId) (s : Search) (hs : s.Fits g fuel) (hroots : ∀ n ∈ roots, n < g.size) :
    (roots.foldl (g.visit fuel) s).seen.Nodup ∧
      ∃ new, g.Finds roots s (roots.foldl (g.visit fuel) s) new := by
  induction roots generalizing s with
  | nil => exact ⟨hs.nodup, [], .nothing g s⟩
  | cons n rest ihr =>
      have hn : n < g.size := hroots n (by simp)
      obtain ⟨hnodup, new, hnew⟩ := ih s n hs hn
      have hfits : (g.visit fuel s n).Fits g fuel := hnew.fits hs (by simpa using hn) hnodup
      obtain ⟨hnodup', new', hnew'⟩ := ihr _ hfits fun m hm => hroots m (by simp [hm])
      exact ⟨hnodup', _, hnew.cons hnew'⟩

theorem visit_finds (g : Graph) (fuel : Nat) (s : Search) (n : NodeId) (hs : s.Fits g fuel)
    (hn : n < g.size) :
    (g.visit fuel s n).seen.Nodup ∧ ∃ new, g.Finds [n] s (g.visit fuel s n) new := by
  induction fuel generalizing s n with
  | zero => exact ⟨hs.nodup, [], .already (hs.mem_of_no_fuel hn)⟩
  | succ fuel ih =>
      rw [visit]
      by_cases hseen : n ∈ s.seen
      · rw [if_pos hseen]
        exact ⟨hs.nodup, [], .already hseen⟩
      · rw [if_neg hseen]
        obtain ⟨hnodup, new, hnew⟩ := foldl_visit_finds ih (g.succ n) _ (hs.enter hn hseen)
          fun m hm => succ_lt_size hm
        exact ⟨hnodup, _, hnew.node⟩

/-- The whole search: it meets exactly what it lists, and from there nothing else can be reached. -/
theorem reversePostorder_finds (g : Graph) :
    g.reversePostorder.Nodup ∧ ∃ t, g.Finds [g.start] ⟨[], []⟩ t g.reversePostorder := by
  have hfits : Search.Fits g g.size ⟨[], []⟩ := ⟨by simp, by simp, by simp⟩
  obtain ⟨hnodup, new, hnew⟩ := visit_finds g g.size ⟨[], []⟩ g.start hfits g.start_lt
  have hnew_eq : g.reversePostorder = new := by
    simpa [reversePostorder] using hnew.done_eq
  rw [hnew_eq]
  refine ⟨?_, _, hnew⟩
  simpa using hnew.seen_perm.nodup_iff.mp hnodup

theorem nodup_reversePostorder (g : Graph) : g.reversePostorder.Nodup :=
  g.reversePostorder_finds.1

theorem mem_reversePostorder {g : Graph} {n : NodeId} :
    n ∈ g.reversePostorder ↔ g.Reaches g.start n := by
  obtain ⟨t, ht⟩ := g.reversePostorder_finds.2
  have hseen : ∀ m, m ∈ t.seen ↔ m ∈ g.reversePostorder := by
    intro m
    simpa using ht.mem_seen_iff (n := m)
  constructor
  · intro hn
    obtain ⟨r, hr, hreach⟩ := ht.reached n hn
    rwa [List.mem_singleton.mp hr] at hreach
  · intro h
    induction h with
    | refl => exact (hseen _).mp (ht.roots_seen _ (by simp))
    | tail _ hedge ih => exact (hseen _).mp (ht.closed _ ih _ (mem_succ.mpr hedge))

/-- Each node listed, the start apart, stands after one of its predecessors. -/
theorem led_reversePostorder (g : Graph) : g.Led (· = g.start) g.reversePostorder := by
  obtain ⟨t, ht⟩ := g.reversePostorder_finds.2
  exact ht.led.mono fun n hn => List.mem_singleton.mp hn

end LoanScope.Graph
