import LoanScope.Proofs.Graph.Builder
import Mathlib.Data.List.Induction
import Mathlib.Data.List.Infix

/-! Plans that are made by calls in any order. What a plan builds depends on three things that can
be read off the calls: the kinds of added nodes, the edges that were asked for, and the start that
was last set. -/

namespace LoanScope.Graph

namespace Plan

/-- A call that changes a plan. -/
inductive Call where
  | addNode (kind : NodeKind)
  | addEdge (e : Edge)
  | addPath (nodes : List NodeId)
  | setStart (n : NodeId)
deriving DecidableEq

namespace Call

def apply (p : Plan) : Call → Plan
  | addNode kind => p.addNode kind
  | addEdge e => p.addEdge e
  | addPath nodes => p.addPath nodes
  | setStart n => p.setStart n

/-- The call on a builder. -/
def applyTo (b : Builder) : Call → Builder
  | addNode kind => b.addNode kind
  | addEdge e => b.addEdge e
  | addPath nodes => b.addPath nodes
  | setStart n => b.setStart n

def kind? : Call → Option NodeKind
  | addNode kind => some kind
  | _ => none

/-- The edges that a call asks for, repeated ones too. -/
def edges : Call → List Edge
  | addEdge e => [e]
  | addPath nodes => nodes.zip nodes.tail
  | _ => []

def start? : Call → Option NodeId
  | setStart n => some n
  | _ => none

end Call

/-- The plan after calls in order. -/
def after (calls : List Call) : Plan := calls.foldl Call.apply empty

/-- The builder after calls in order. -/
def builderAfter (calls : List Call) : Builder := calls.foldl Call.applyTo .empty

/-- The kinds of the added nodes. -/
def kindsOf (calls : List Call) : List NodeKind := calls.filterMap Call.kind?

/-- All edges that were asked for, in order. -/
def edgesOf (calls : List Call) : List Edge := calls.flatMap Call.edges

/-- The start that was set last, or else the first start node. -/
def startOf (calls : List Call) : Option NodeId :=
  (calls.filterMap Call.start?).getLast?.or ((kindsOf calls).findIdx? (· = .start))

/-- An edge was asked for by itself, or as two nodes in a row of a path. -/
def Asked (calls : List Call) (u v : NodeId) : Prop :=
  .addEdge (u, v) ∈ calls ∨ ∃ nodes, .addPath nodes ∈ calls ∧ [u, v] <:+: nodes

theorem mem_zip_tail {nodes : List NodeId} {u v : NodeId} :
    (u, v) ∈ nodes.zip nodes.tail ↔ [u, v] <:+: nodes := by
  induction nodes with
  | nil => simp
  | cons n rest ih =>
      cases rest with
      | nil =>
          simp [List.infix_cons_iff]
      | cons m rest =>
          rw [List.infix_cons_iff, ← ih]
          simp

theorem mem_edgesOf {calls : List Call} {u v : NodeId} :
    (u, v) ∈ edgesOf calls ↔ Asked calls u v := by
  rw [edgesOf, List.mem_flatMap, Asked]
  constructor
  · rintro ⟨call, hcall, hmem⟩
    cases call with
    | addNode kind => cases hmem
    | addEdge e =>
        rw [List.mem_singleton.mp hmem]
        exact .inl hcall
    | addPath nodes => exact .inr ⟨nodes, hcall, mem_zip_tail.mp hmem⟩
    | setStart n => cases hmem
  · rintro (hcall | ⟨nodes, hcall, hrow⟩)
    · exact ⟨_, hcall, List.mem_singleton.mpr rfl⟩
    · exact ⟨_, hcall, mem_zip_tail.mpr hrow⟩

/-! ### One call -/

theorem start?_addEdge (p : Plan) (e : Edge) : (p.addEdge e).start? = p.start? := by
  rw [addEdge]
  split <;> rfl

theorem start?_foldl_addEdge (edges : List Edge) (p : Plan) :
    (edges.foldl addEdge p).start? = p.start? := by
  induction edges generalizing p with
  | nil => rfl
  | cons e rest ih => rw [List.foldl_cons, ih, start?_addEdge]

namespace Call

theorem kinds_apply (p : Plan) (call : Call) :
    (call.apply p).kinds = p.kinds ++ call.kind?.toList := by
  cases call with
  | addNode kind => rfl
  | addEdge e => simp [apply, kind?, kinds_addEdge]
  | addPath nodes => simp [apply, kind?, Plan.addPath, foldl_addEdge]
  | setStart n => simp [apply, kind?, Plan.setStart]

theorem edges_apply (p : Plan) (call : Call) :
    (call.apply p).edges = (call.edges.foldl Plan.addEdge p).edges := by
  cases call <;> rfl

theorem start?_apply (p : Plan) (call : Call) :
    (call.apply p).start? =
      if call = .addNode .start then p.start?.or (some p.kinds.length)
      else call.start?.or p.start? := by
  cases call with
  | addNode kind => cases kind <;> rfl
  | addEdge e => exact p.start?_addEdge e
  | addPath nodes => exact start?_foldl_addEdge _ p
  | setStart n => rfl

theorem builder_apply (p : Plan) (call : Call) :
    (call.apply p).builder = call.applyTo p.builder := by
  cases call with
  | addNode kind => exact p.builder_addNode kind
  | addEdge e => exact p.builder_addEdge e
  | addPath nodes => exact builder_foldl_addEdge _ p
  | setStart n => rfl

end Call

/-! ### All calls -/

section concat

variable (calls : List Call) (call : Call)

theorem after_concat : after (calls ++ [call]) = call.apply (after calls) := by
  simp [after]

theorem builderAfter_concat :
    builderAfter (calls ++ [call]) = call.applyTo (builderAfter calls) := by
  simp [builderAfter]

theorem kindsOf_concat : kindsOf (calls ++ [call]) = kindsOf calls ++ call.kind?.toList := by
  cases h : call.kind? <;> simp [kindsOf, h]

theorem edgesOf_concat : edgesOf (calls ++ [call]) = edgesOf calls ++ call.edges := by
  simp [edgesOf]

theorem startOf_concat :
    startOf (calls ++ [call]) =
      if call = .addNode .start then (startOf calls).or (some (kindsOf calls).length)
      else call.start?.or (startOf calls) := by
  rw [startOf, kindsOf_concat, List.findIdx?_append, List.filterMap_append, List.getLast?_append]
  cases call with
  | addNode kind => cases kind <;> simp [startOf, Call.kind?, Call.start?]
  | addEdge e => simp [startOf, Call.kind?, Call.start?]
  | addPath nodes => simp [startOf, Call.kind?, Call.start?]
  | setStart n => simp [startOf, Call.kind?, Call.start?]

end concat

theorem builder_after (calls : List Call) : (after calls).builder = builderAfter calls := by
  induction calls using List.reverseRecOn with
  | nil => rfl
  | append_singleton calls call ih => rw [after_concat, call.builder_apply, ih, builderAfter_concat]

theorem kinds_after (calls : List Call) : (after calls).kinds = kindsOf calls := by
  induction calls using List.reverseRecOn with
  | nil => rfl
  | append_singleton calls call ih => rw [after_concat, call.kinds_apply, ih, kindsOf_concat]

theorem start?_after (calls : List Call) : (after calls).start? = startOf calls := by
  induction calls using List.reverseRecOn with
  | nil => rfl
  | append_singleton calls call ih =>
      rw [after_concat, call.start?_apply, ih, kinds_after, startOf_concat]

/-- The first edge of any kind is the first that was asked for. -/
theorem find?_edges_after (q : Edge → Bool) (calls : List Call) :
    (after calls).edges.find? q = (edgesOf calls).find? q := by
  induction calls using List.reverseRecOn with
  | nil => rfl
  | append_singleton calls call ih =>
      rw [after_concat, call.edges_apply, find?_foldl_addEdge, List.find?_append, ih,
        ← List.find?_append, edgesOf_concat]

theorem mem_edges_after {calls : List Call} {e : Edge} :
    e ∈ (after calls).edges ↔ e ∈ edgesOf calls := by
  induction calls using List.reverseRecOn with
  | nil => rfl
  | append_singleton calls call ih =>
      rw [after_concat, call.edges_apply, (foldl_addEdge _ _).2, ih, edgesOf_concat,
        List.mem_append]

/-- Edges are in the order in which they were first asked for. -/
theorem edges_after_ordered (calls : List Call) :
    (after calls).edges.Pairwise fun a b => (edgesOf calls).idxOf a < (edgesOf calls).idxOf b := by
  have hnodup := List.pairwise_iff_getElem.mp (after calls).edges_nodup
  have hfind := fun q => find?_edges_after q calls
  generalize (after calls).edges = edges at hnodup hfind
  rw [List.pairwise_iff_getElem]
  intro i j hi hj hij
  -- The first of the two among the edges is the first of them that was asked for.
  have hfirst : edges.find? (fun e => e = edges[i] ∨ e = edges[j]) = some edges[i] := by
    refine List.find?_eq_some_iff_getElem.mpr ⟨by simp, i, hi, rfl, fun k hk => ?_⟩
    simp [hnodup k i (hk.trans hi) hi hk, hnodup k j (hk.trans hi) hj (hk.trans hij)]
  rw [hfind] at hfirst
  obtain ⟨-, before, later, hall, hbefore⟩ := List.find?_eq_some_iff_append.mp hfirst
  have hnoti : edges[i] ∉ before := fun h => by simpa using hbefore _ h
  have hnotj : edges[j] ∉ before := fun h => by simpa using hbefore _ h
  rw [hall, List.idxOf_append_of_notMem hnoti, List.idxOf_append_of_notMem hnotj,
    List.idxOf_cons_self, List.idxOf_cons_ne _ (hnodup i j hi hj hij)]
  exact Nat.lt_add_of_pos_right (Nat.succ_pos _)

/-! ### The graph that is built -/

end Plan

/-- Successors keep the order of the edges. -/
theorem succ_pairwise {g : Graph} {R : Edge → Edge → Prop} (h : g.edges.Pairwise R) (u : NodeId) :
    (g.succ u).Pairwise fun v w => R (u, v) (u, w) := by
  refine List.pairwise_filterMap.mpr (h.imp ?_)
  rintro ⟨a, b⟩ ⟨c, d⟩ hR v hv w hw
  simp only [Option.ite_none_right_eq_some, Option.some.injEq] at hv hw
  obtain ⟨⟨rfl, rfl⟩, rfl, rfl⟩ := And.intro hv hw
  exact hR

/-- Predecessors keep the order of the edges. -/
theorem pred_pairwise {g : Graph} {R : Edge → Edge → Prop} (h : g.edges.Pairwise R) (v : NodeId) :
    (g.pred v).Pairwise fun u w => R (u, v) (w, v) := by
  refine List.pairwise_filterMap.mpr (h.imp ?_)
  rintro ⟨a, b⟩ ⟨c, d⟩ hR u hu w hw
  simp only [Option.ite_none_right_eq_some, Option.some.injEq] at hu hw
  obtain ⟨⟨rfl, rfl⟩, rfl, rfl⟩ := And.intro hu hw
  exact hR

namespace Plan

/-- A graph as calls have made it. -/
structure BuiltBy (calls : List Call) (g : Graph) : Prop where
  start : startOf calls = some g.start
  nodes : g.nodes = List.range (kindsOf calls).length
  kinds : g.kinds = kindsOf calls
  succ : ∀ u v, v ∈ g.succ u ↔ Asked calls u v
  pred : ∀ u v, u ∈ g.pred v ↔ Asked calls u v
  succ_nodup : ∀ u, (g.succ u).Nodup
  pred_nodup : ∀ v, (g.pred v).Nodup
  succ_ordered : ∀ u, (g.succ u).Pairwise fun v w =>
    (edgesOf calls).idxOf (u, v) < (edgesOf calls).idxOf (u, w)
  pred_ordered : ∀ v, (g.pred v).Pairwise fun u w =>
    (edgesOf calls).idxOf (u, v) < (edgesOf calls).idxOf (w, v)
  finish : ∀ n, g.finish? = some n ↔
    (kindsOf calls)[n]? = some .finish ∧ ∀ m < n, (kindsOf calls)[m]? ≠ some .finish

theorem findIdx?_eq_some {kinds : List NodeKind} {kind : NodeKind} {n : Nat} :
    kinds.findIdx? (· = kind) = some n ↔ kinds[n]? = some kind ∧
      ∀ m < n, kinds[m]? ≠ some kind := by
  rw [List.findIdx?_eq_some_iff_getElem]
  constructor
  · rintro ⟨hn, hkind, hbefore⟩
    refine ⟨List.getElem?_eq_some_iff.mpr ⟨hn, of_decide_eq_true hkind⟩, fun m hm h => ?_⟩
    obtain ⟨_, hkind'⟩ := List.getElem?_eq_some_iff.mp h
    exact hbefore m hm (decide_eq_true hkind')
  · rintro ⟨h, hbefore⟩
    obtain ⟨hn, hkind⟩ := List.getElem?_eq_some_iff.mp h
    refine ⟨hn, decide_eq_true hkind, fun m hm hkind' => hbefore m hm ?_⟩
    exact List.getElem?_eq_some_iff.mpr ⟨hm.trans hn, of_decide_eq_true hkind'⟩

theorem builtBy_of_build {calls : List Call} {g : Graph} (h : (after calls).build = .ok g) :
    BuiltBy calls g := by
  obtain ⟨hkinds, hstart, hedges⟩ := build_eq_ok h
  rw [kinds_after] at hkinds
  rw [start?_after] at hstart
  have hasked : ∀ u v, (u, v) ∈ g.edges ↔ Asked calls u v := fun u v => by
    rw [hedges, mem_edges_after, mem_edgesOf]
  have hordered : g.edges.Pairwise fun a b => (edgesOf calls).idxOf a < (edgesOf calls).idxOf b :=
    hedges ▸ edges_after_ordered calls
  refine ⟨hstart, by rw [Graph.nodes, Graph.size, hkinds], hkinds, ?_, ?_, ?_, ?_, ?_, ?_, ?_⟩
  · exact fun u v => Graph.mem_succ.trans (hasked u v)
  · exact fun u v => Graph.mem_pred.trans (hasked u v)
  · exact fun u => (Graph.succ_pairwise g.edges_nodup u).imp fun hne heq => hne (by rw [heq])
  · exact fun v => (Graph.pred_pairwise g.edges_nodup v).imp fun hne heq => hne (by rw [heq])
  · exact Graph.succ_pairwise hordered
  · exact Graph.pred_pairwise hordered
  · intro n
    rw [Graph.finish?, hkinds]
    exact findIdx?_eq_some

theorem startOf_eq_none {calls : List Call} :
    startOf calls = none ↔ .addNode .start ∉ calls ∧ ∀ n, .setStart n ∉ calls := by
  have hkind : .start ∈ kindsOf calls ↔ .addNode .start ∈ calls := by
    rw [kindsOf, List.mem_filterMap]
    constructor
    · rintro ⟨call, hcall, h⟩
      cases call <;> cases h
      exact hcall
    · exact fun hcall => ⟨_, hcall, rfl⟩
  have hset : ∀ n, n ∈ calls.filterMap Call.start? ↔ .setStart n ∈ calls := by
    intro n
    rw [List.mem_filterMap]
    constructor
    · rintro ⟨call, hcall, h⟩
      cases call <;> cases h
      exact hcall
    · exact fun hcall => ⟨_, hcall, rfl⟩
  rw [startOf, Option.or_eq_none_iff, List.getLast?_eq_none_iff, List.findIdx?_eq_none_iff,
    and_comm, ← hkind]
  simp only [← hset, ← List.eq_nil_iff_forall_not_mem, decide_eq_false_iff_not, List.forall_mem_ne']

/-- What calls in any order build. Without a start node and a start that is set, the start is
missing. Otherwise the start that was set last, or else the first start node, must be one of the
added nodes; then the first edge that was asked for and has an end outside is told. If there is
none, the graph has the added nodes and the edges that were asked for, each once and in the order of
their first mention, seen from both of their ends. A builder that remembers the first end node, and
lists the neighbours of nodes edge by edge, has the same outcome, with the graph's own neighbours
and end. -/
theorem build_after (calls : List Call) :
    ((after calls).build = .error .missingStart ↔
      .addNode .start ∉ calls ∧ ∀ n, .setStart n ∉ calls) ∧
    (∀ n, (after calls).build = .error (.invalidStart n) ↔
      startOf calls = some n ∧ (kindsOf calls).length ≤ n) ∧
    (∀ e, (after calls).build = .error (.invalidEdge e) ↔
      (∃ n, startOf calls = some n ∧ n < (kindsOf calls).length) ∧
        (edgesOf calls).find? (Edge.leaves (kindsOf calls).length) = some e) ∧
    ((∃ g, (after calls).build = .ok g) ↔
      (∃ n, startOf calls = some n ∧ n < (kindsOf calls).length) ∧
        ∀ u v, Asked calls u v → u < (kindsOf calls).length ∧ v < (kindsOf calls).length) ∧
    (∀ g, (after calls).build = .ok g → BuiltBy calls g) ∧
    (builderAfter calls).build = (after calls).build.map layout := by
  have hlayout : (builderAfter calls).build = (after calls).build.map layout := by
    rw [← builder_after, build_builder]
  have hinside : ((edgesOf calls).find? (Edge.leaves (kindsOf calls).length) = none) ↔
      ∀ u v, Asked calls u v → u < (kindsOf calls).length ∧ v < (kindsOf calls).length := by
    simp [List.find?_eq_none, ← mem_edgesOf, Edge.leaves]
  rw [← startOf_eq_none, ← hinside]
  cases hstart : startOf calls with
  | none =>
      have hbuild := build_of_start?_eq_none ((start?_after calls).trans hstart)
      simp [hlayout, hbuild]
  | some start =>
      have hplan : (after calls).start? = some start := (start?_after calls).trans hstart
      have herror := fun e => build_eq_error (e := e) hplan
      have hok := exists_build_eq_ok hplan
      rw [kinds_after, find?_edges_after] at hok
      simp only [kinds_after, find?_edges_after] at herror
      refine ⟨by simp [herror], fun n => ?_, fun e => by simp [herror], by simp [hok],
        fun g => builtBy_of_build, hlayout⟩
      simp only [herror, GraphError.invalidStart.injEq, reduceCtorEq, and_false, exists_false,
        or_false, Option.some.injEq]
      constructor
      · rintro ⟨hle, rfl⟩
        exact ⟨rfl, hle⟩
      · rintro ⟨rfl, hle⟩
        exact ⟨hle, rfl⟩

end Plan

end LoanScope.Graph
