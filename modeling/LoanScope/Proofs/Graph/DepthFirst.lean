import LoanScope.Proofs.Graph.ReversePostorder

/-! The reverse postorder follows the edges: an edge that does not lead forward in the list closes a
cycle. The search is also run here as a loop over a stack of half-searched nodes, which comes to an
end with the same list. -/

namespace LoanScope.Graph

/-! ### Edges that lead forward -/

/-- A node whose search has begun and is not over. -/
def Search.Open (s : Search) (n : NodeId) : Prop := n ∈ s.seen ∧ n ∉ s.done

/-- Every node of the list stands before the nodes that it leads to, unless they lead back to it. -/
def Forward (g : Graph) : List NodeId → Prop
  | [] => True
  | n :: rest => (∀ m, (n, m) ∈ g.edges → m ∈ rest ∨ g.Reaches m n) ∧ g.Forward rest

/-- A search is over with all nodes that it meets. -/
theorem Finds.open_of_open {g : Graph} {roots : List NodeId} {s t : Search} {new : List NodeId}
    (h : g.Finds roots s t new) {n : NodeId} (hn : t.Open n) : s.Open n := by
  obtain ⟨hseen, hdone⟩ := hn
  rw [h.done_eq, List.mem_append, not_or] at hdone
  exact ⟨(h.mem_seen_iff.mp hseen).resolve_left hdone.1, hdone.2⟩

/-- If a search below one node keeps the list in order, so does a search below several. -/
theorem foldl_visit_forward {g : Graph} {fuel : Nat}
    (ih : ∀ s n, s.Fits g fuel → n < g.size → (∀ m, s.Open m → g.Reaches m n) → g.Forward s.done →
      g.Forward (g.visit fuel s n).done)
    (roots : List NodeId) (s : Search) (hs : s.Fits g fuel) (hroots : ∀ n ∈ roots, n < g.size)
    (hopen : ∀ n ∈ roots, ∀ m, s.Open m → g.Reaches m n) (hdone : g.Forward s.done) :
    g.Forward (roots.foldl (g.visit fuel) s).done := by
  induction roots generalizing s with
  | nil => exact hdone
  | cons n rest ihr =>
      have hn : n < g.size := hroots n (by simp)
      obtain ⟨hnodup, new, hnew⟩ := visit_finds g fuel s n hs hn
      rw [List.foldl_cons]
      apply ihr
      · exact hnew.fits hs (by simpa using hn) hnodup
      · intro k hk
        exact hroots k (by simp [hk])
      · intro k hk m hm
        exact hopen k (by simp [hk]) m (hnew.open_of_open hm)
      · exact ih s n hs hn (hopen n (by simp)) hdone

/-- The nodes that are open lead to the node that is searched, so a successor that is open leads
back to it. -/
theorem visit_forward (g : Graph) (fuel : Nat) (s : Search) (n : NodeId) (hs : s.Fits g fuel)
    (hn : n < g.size) (hopen : ∀ m, s.Open m → g.Reaches m n) (hdone : g.Forward s.done) :
    g.Forward (g.visit fuel s n).done := by
  induction fuel generalizing s n with
  | zero => exact hdone
  | succ fuel ih =>
      rw [visit]
      by_cases hseen : n ∈ s.seen
      · rwa [if_pos hseen]
      · rw [if_neg hseen]
        have hfits := hs.enter hn hseen
        have hroots : ∀ k ∈ g.succ n, k < g.size := fun k hk => succ_lt_size hk
        have hreach : ∀ m, Search.Open { s with seen := n :: s.seen } m → g.Reaches m n := by
          rintro m ⟨hm, hnot⟩
          rcases List.mem_cons.mp hm with rfl | hm
          · exact .refl
          · exact hopen m ⟨hm, hnot⟩
        obtain ⟨-, new, hnew⟩ := foldl_visit_finds (visit_finds g fuel) (g.succ n) _ hfits hroots
        constructor
        · intro m hedge
          have hm := hnew.roots_seen m (mem_succ.mpr hedge)
          by_cases hover : m ∈ ((g.succ n).foldl (g.visit fuel) { s with seen := n :: s.seen }).done
          · exact .inl hover
          · exact .inr (hreach m (hnew.open_of_open ⟨hm, hover⟩))
        · apply foldl_visit_forward ih (g.succ n) _ hfits hroots
          · intro k hk m hm
            exact (hreach m hm).tail (mem_succ.mp hk)
          · exact hdone

theorem forward_reversePostorder (g : Graph) : g.Forward g.reversePostorder := by
  apply visit_forward g g.size ⟨[], []⟩ g.start
  · exact ⟨by simp, by simp, by simp⟩
  · exact g.start_lt
  · rintro m ⟨hm, -⟩
    cases hm
  · trivial

/-! ### Positions -/

/-- `[m, n] <+ l` says that `m` stands before `n` in `l`. -/
theorem Forward.before_or_reaches {g : Graph} {l : List NodeId} (h : g.Forward l) {m n : NodeId}
    (hm : m ∈ l) (hedge : (m, n) ∈ g.edges) : [m, n].Sublist l ∨ g.Reaches n m := by
  induction l with
  | nil => cases hm
  | cons k rest ih =>
      rcases List.mem_cons.mp hm with rfl | hm
      · rcases h.1 n hedge with hn | hback
        · exact .inl (List.Sublist.cons_cons m (List.singleton_sublist.mpr hn))
        · exact .inr hback
      · rcases ih h.2 hm with hbefore | hback
        · exact .inl (hbefore.cons k)
        · exact .inr hback

theorem Led.exists_before {g : Graph} {fine : NodeId → Prop} {l : List NodeId} (h : g.Led fine l)
    {n : NodeId} (hn : n ∈ l) : fine n ∨ ∃ m, (m, n) ∈ g.edges ∧ [m, n].Sublist l := by
  induction l generalizing fine with
  | nil => cases hn
  | cons k rest ih =>
      rcases List.mem_cons.mp hn with rfl | hn
      · exact .inl h.1
      · rcases ih h.2 hn with (hfine | hedge) | ⟨m, hedge, hbefore⟩
        · exact .inl hfine
        · exact .inr ⟨k, hedge, List.Sublist.cons_cons k (List.singleton_sublist.mpr hn)⟩
        · exact .inr ⟨m, hedge, hbefore.cons k⟩

theorem head?_reversePostorder (g : Graph) : g.reversePostorder.head? = some g.start := by
  have hled := g.led_reversePostorder
  have hstart : g.start ∈ g.reversePostorder := mem_reversePostorder.mpr .refl
  cases hlist : g.reversePostorder with
  | nil =>
      rw [hlist] at hstart
      cases hstart
  | cons n rest =>
      rw [hlist] at hled
      rw [List.head?_cons, hled.1]

/-! ### The search as a loop -/

theorem visit_of_mem {g : Graph} (fuel : Nat) {s : Search} {n : NodeId} (h : n ∈ s.seen) :
    g.visit fuel s n = s := by
  cases fuel with
  | zero => rfl
  | succ fuel => rw [visit, if_pos h]

/-- A search as a loop keeps it, with the open nodes on a stack, the last one first, and with each
of them the number of its successors that were looked at. -/
structure Loop where
  search : Search
  stack : List (NodeId × Nat)

namespace Loop

/-- The loop starts with the start met and none of its successors looked at. -/
def initial (g : Graph) : Loop := ⟨⟨[g.start], []⟩, [(g.start, 0)]⟩

/-- One turn looks at the next successor of the last open node, or is done with the node if there is
none. -/
def turn (g : Graph) : Loop → Option Loop
  | ⟨_, []⟩ => none
  | ⟨s, (n, i) :: rest⟩ =>
      match (g.succ n)[i]? with
      | none => some ⟨{ s with done := n :: s.done }, rest⟩
      | some m =>
          if m ∈ s.seen then some ⟨s, (n, i + 1) :: rest⟩
          else some ⟨{ s with seen := m :: s.seen }, (m, 0) :: (n, i + 1) :: rest⟩

/-- A number of turns leads from one state to another. -/
inductive Turns (g : Graph) : Loop → Nat → Loop → Prop where
  | refl (l : Loop) : Turns g l 0 l
  | head {l l₁ l₂ k} (h : l.turn g = some l₁) (hrest : Turns g l₁ k l₂) : Turns g l (k + 1) l₂

variable {g : Graph} {n m i : Nat} {s s₁ t : Search}

theorem Turns.trans {l l₁ l₂ : Loop} {j k : Nat} (h : Turns g l j l₁) (h' : Turns g l₁ k l₂) :
    Turns g l (j + k) l₂ := by
  induction h with
  | refl l => simpa using h'
  | head hturn _ ih =>
      rw [Nat.add_right_comm]
      exact .head hturn (ih h')

/-- One turn for each node of the list, and one for each successor of such a node. -/
def work (g : Graph) (l : List NodeId) : Nat := (l.flatMap fun n => n :: g.succ n).length

theorem work_cons (n : NodeId) (l : List NodeId) :
    work g (n :: l) = (g.succ n).length + 1 + work g l := by
  simp only [work, List.flatMap_cons, List.length_append, List.length_cons]

/-- The loop gets done with an open node that has `i` successors looked at, whatever lies below it
on the stack. The `i` turns for those successors are past. -/
def Closes (g : Graph) (n i : Nat) (s t : Search) : Prop :=
  ∀ rest, ∃ k, Turns g ⟨s, (n, i) :: rest⟩ k ⟨t, rest⟩ ∧ work g t.done = work g s.done + i + k

namespace Closes

theorem last (h : (g.succ n).length = i) : Closes g n i s { s with done := n :: s.done } := by
  intro rest
  have hnone : (g.succ n)[i]? = none := List.getElem?_eq_none (Nat.le_of_eq h)
  refine ⟨1, .head (by simp [turn, hnone]) (.refl _), ?_⟩
  rw [work_cons, h]
  omega

theorem skip (hm : (g.succ n)[i]? = some m) (hseen : m ∈ s.seen) (h : Closes g n (i + 1) s t) :
    Closes g n i s t := by
  intro rest
  obtain ⟨k, hturns, hwork⟩ := h rest
  refine ⟨k + 1, .head (by simp [turn, hm, hseen]) hturns, ?_⟩
  omega

theorem enter (hm : (g.succ n)[i]? = some m) (hnew : m ∉ s.seen)
    (hbelow : Closes g m 0 { s with seen := m :: s.seen } s₁) (h : Closes g n (i + 1) s₁ t) :
    Closes g n i s t := by
  intro rest
  obtain ⟨j, hfirst, hfirstWork⟩ := hbelow ((n, i + 1) :: rest)
  obtain ⟨k, hturns, hwork⟩ := h rest
  refine ⟨j + k + 1, .head (by simp [turn, hm, hnew]) (hfirst.trans hturns), ?_⟩
  simp only at hfirstWork
  omega

end Closes

/-- If the loop gets done with every new node, it gets through the successors that are left of a
node. -/
theorem closes_of_succ {fuel : Nat}
    (ih : ∀ (s : Search) m, s.Fits g fuel → m < g.size → m ∉ s.seen →
      Closes g m 0 { s with seen := m :: s.seen } (g.visit fuel s m))
    (left : List NodeId) (hleft : (g.succ n).drop i = left) (hi : i ≤ (g.succ n).length)
    (hs : s.Fits g fuel) :
    Closes g n i s
      { left.foldl (g.visit fuel) s with done := n :: (left.foldl (g.visit fuel) s).done } := by
  induction left generalizing i s with
  | nil =>
      apply Closes.last
      exact Nat.le_antisymm (List.drop_eq_nil_iff.mp hleft) hi
  | cons m later ihl =>
      have hm : (g.succ n)[i]? = some m := by rw [← List.head?_drop, hleft, List.head?_cons]
      have hlater : (g.succ n).drop (i + 1) = later := by
        rw [← List.tail_drop, hleft, List.tail_cons]
      have hlt : i < (g.succ n).length := (List.getElem?_eq_some_iff.mp hm).1
      have hsize : m < g.size := succ_lt_size (List.mem_of_getElem? hm)
      rw [List.foldl_cons]
      by_cases hseen : m ∈ s.seen
      · rw [visit_of_mem fuel hseen]
        exact .skip hm hseen (ihl hlater hlt hs)
      · obtain ⟨hnodup, new, hnew⟩ := visit_finds g fuel s m hs hsize
        have hfits := hnew.fits hs (by simpa using hsize) hnodup
        exact .enter hm hseen (ih s m hs hsize hseen) (ihl hlater hlt hfits)

theorem closes_visit (fuel : Nat) (s : Search) (n : NodeId) (hs : s.Fits g fuel) (hn : n < g.size)
    (hnew : n ∉ s.seen) : Closes g n 0 { s with seen := n :: s.seen } (g.visit fuel s n) := by
  induction fuel generalizing s n with
  | zero => exact absurd (hs.mem_of_no_fuel hn) hnew
  | succ fuel ih =>
      rw [visit, if_neg hnew]
      exact closes_of_succ ih (g.succ n) List.drop_zero (Nat.zero_le _) (hs.enter hn hnew)

/-- The loop ends, with the reverse postorder. -/
theorem turns_reversePostorder (g : Graph) :
    ∃ seen, Turns g (initial g) (work g g.reversePostorder) ⟨⟨seen, g.reversePostorder⟩, []⟩ := by
  have hfits : Search.Fits g g.size ⟨[], []⟩ := ⟨by simp, by simp, by simp⟩
  obtain ⟨k, hturns, hwork⟩ := closes_visit g.size ⟨[], []⟩ g.start hfits g.start_lt (by simp) []
  have hk : work g g.reversePostorder = k := hwork.trans (Nat.zero_add k)
  rw [hk]
  exact ⟨_, hturns⟩

end Loop

/-- The reverse postorder of any graph. The loop that computes it ends, after one turn for each node
listed and one for each of its successors. The list begins with the start, has every node that the
start reaches, each once, and nothing else. An edge within the list that does not lead forward
closes a cycle; so if there is no cycle within reach, all edges lead forward. And every node listed
but the start has a predecessor before it. -/
theorem reversePostorder_ordered (g : Graph) :
    (∃ seen, Loop.Turns g (.initial g) (g.reversePostorder.flatMap fun n => n :: g.succ n).length
      ⟨⟨seen, g.reversePostorder⟩, []⟩) ∧
    g.reversePostorder.Nodup ∧
    (∀ n, n ∈ g.reversePostorder ↔ g.Reaches g.start n) ∧
    g.reversePostorder.head? = some g.start ∧
    (∀ u v, (u, v) ∈ g.edges → g.Reaches g.start u →
      ¬ [u, v].Sublist g.reversePostorder → g.Reaches v u) ∧
    ((∀ n, g.Reaches g.start n → ¬ Relation.TransGen (fun a b => (a, b) ∈ g.edges) n n) →
      ∀ u v, (u, v) ∈ g.edges → g.Reaches g.start u → [u, v].Sublist g.reversePostorder) ∧
    ∀ n ∈ g.reversePostorder, n ≠ g.start →
      ∃ m, (m, n) ∈ g.edges ∧ [m, n].Sublist g.reversePostorder := by
  have hedges : ∀ u v, (u, v) ∈ g.edges → g.Reaches g.start u →
      [u, v].Sublist g.reversePostorder ∨ g.Reaches v u := by
    intro u v hedge hu
    exact g.forward_reversePostorder.before_or_reaches (mem_reversePostorder.mpr hu) hedge
  refine ⟨Loop.turns_reversePostorder g, g.nodup_reversePostorder, fun n => mem_reversePostorder,
    g.head?_reversePostorder, ?_, ?_, ?_⟩
  · intro u v hedge hu hnot
    exact (hedges u v hedge hu).resolve_left hnot
  · intro hacyclic u v hedge hu
    refine (hedges u v hedge hu).resolve_right fun hback => ?_
    exact hacyclic u hu (Relation.TransGen.head' hedge hback)
  · intro n hn hne
    exact (g.led_reversePostorder.exists_before hn).resolve_left hne

end LoanScope.Graph
