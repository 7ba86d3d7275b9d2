import LoanScope.Proofs.Function.Binding

/-! Variables in the order of reading: parameters, then the nodes by ascending id, an initialiser
before the name that it initialises, operands from left to right. Binding goes through a fixture in
this order, gives every use the last declaration of its name before it, and stops at the first use
that has none. -/

namespace LoanScope

/-- A variable is used in a node, or declared. -/
inductive Mention (α : Type) where
  | use (x : α) (node : NodeId)
  | declare (x : α)

namespace Mention

variable {α β : Type}

def map (f : α → β) : Mention α → Mention β
  | use x n => use (f x) n
  | declare x => declare (f x)

def declared? : Mention α → Option α
  | use _ _ => none
  | declare x => some x

/-- What is declared, in order. -/
def declared (ms : List (Mention α)) : List α := ms.filterMap declared?

@[simp] theorem declared_nil : declared ([] : List (Mention α)) = [] := rfl

@[simp] theorem declared_append (ms ns : List (Mention α)) :
    declared (ms ++ ns) = declared ms ++ declared ns :=
  List.filterMap_append

@[simp] theorem declared_use (x : α) (n : NodeId) (ms : List (Mention α)) :
    declared (use x n :: ms) = declared ms := rfl

@[simp] theorem declared_declare (x : α) (ms : List (Mention α)) :
    declared (declare x :: ms) = x :: declared ms := rfl

@[simp] theorem mem_declared {x : α} {ms : List (Mention α)} :
    x ∈ declared ms ↔ declare x ∈ ms := by
  induction ms with
  | nil => simp
  | cons m rest ih => cases m <;> simp [ih]

/-- Every name in `ms` is declared before it is used, in `past` or in `ms`. -/
def ResolvedAfter (past ms : List (Mention String)) : Prop :=
  ∀ before x n after, ms = before ++ use x n :: after → declare x ∈ past ++ before

/-- Every name is declared before it is used. -/
def Resolved (ms : List (Mention String)) : Prop := ResolvedAfter [] ms

/-- Every use in `ms` is of the last declaration of its name before it, in `past` or in `ms`. -/
def LastAfter (past ms : List (Mention Variable)) : Prop :=
  ∀ before v n after, ms = before ++ use v n :: after →
    ∃ earlier later, past ++ before = earlier ++ declare v :: later ∧
      ∀ w, declare w ∈ later → w.name ≠ v.name

/-- The second mentions are the first ones bound: every use is of the last declaration of its name
before it, and the declarations are numbered in order. -/
structure BoundTo (ms : List (Mention String)) (bound : List (Mention Variable)) : Prop where
  names : bound.map (map Variable.name) = ms
  last : LastAfter [] bound
  numbered : (declared bound).map Variable.decl = List.range (declared ms).length

theorem resolvedAfter_cons {past rest : List (Mention String)} {m : Mention String} :
    ResolvedAfter past (m :: rest) ↔
      (∀ x n, m = use x n → declare x ∈ past) ∧ ResolvedAfter (past ++ [m]) rest := by
  constructor
  · intro h
    refine ⟨?_, ?_⟩
    · intro x n hm
      simpa using h [] x n rest (by simp [hm])
    · intro before x n after hrest
      simpa using h (m :: before) x n after (by simp [hrest])
  · rintro ⟨hfirst, hrest⟩ before x n after hsplit
    cases before with
    | nil =>
        simp only [List.nil_append, List.cons.injEq] at hsplit
        simpa using hfirst x n hsplit.1
    | cons first before =>
        simp only [List.cons_append, List.cons.injEq] at hsplit
        simpa [hsplit.1] using hrest before x n after hsplit.2

/-- The first name in `ms` that is not declared before it, neither in `past` nor in `ms`. -/
def FirstUnresolved (past ms : List (Mention String)) (x : String) (n : NodeId) : Prop :=
  ∃ before after, ms = before ++ use x n :: after ∧ ResolvedAfter past before ∧
    declare x ∉ past ++ before

theorem firstUnresolved_cons {past rest : List (Mention String)} {m : Mention String} {x : String}
    {n : NodeId} :
    FirstUnresolved past (m :: rest) x n ↔
      m = use x n ∧ declare x ∉ past ∨
        (∀ y k, m = use y k → declare y ∈ past) ∧ FirstUnresolved (past ++ [m]) rest x n := by
  constructor
  · rintro ⟨before, after, hsplit, hbefore, hnot⟩
    cases before with
    | nil =>
        simp only [List.nil_append, List.cons.injEq] at hsplit
        exact .inl ⟨hsplit.1, by simpa using hnot⟩
    | cons first before =>
        simp only [List.cons_append, List.cons.injEq] at hsplit
        rw [← hsplit.1, resolvedAfter_cons] at hbefore
        exact .inr ⟨hbefore.1, before, after, hsplit.2, hbefore.2, by simpa [hsplit.1] using hnot⟩
  · rintro (⟨rfl, hnot⟩ | ⟨hfirst, before, after, rfl, hbefore, hnot⟩)
    · exact ⟨[], rest, rfl, by simp [ResolvedAfter], by simpa using hnot⟩
    · exact ⟨m :: before, after, rfl, resolvedAfter_cons.mpr ⟨hfirst, hbefore⟩, by simpa using hnot⟩

/-- A mention that needs no declaration, or has it, is passed over. -/
theorem firstUnresolved_cons_of {past rest : List (Mention String)} {m : Mention String}
    {x : String} {n : NodeId} (hm : ∀ y k, m = use y k → declare y ∈ past) :
    FirstUnresolved past (m :: rest) x n ↔ FirstUnresolved (past ++ [m]) rest x n := by
  rw [firstUnresolved_cons, and_iff_right hm, or_iff_right]
  rintro ⟨rfl, hnot⟩
  exact hnot (hm x n rfl)

theorem lastAfter_cons {past rest : List (Mention Variable)} {m : Mention Variable}
    (hfirst : ∀ v n, m = use v n → ∃ earlier later, past = earlier ++ declare v :: later ∧
      ∀ w, declare w ∈ later → w.name ≠ v.name)
    (hrest : LastAfter (past ++ [m]) rest) : LastAfter past (m :: rest) := by
  intro before v n after hsplit
  cases before with
  | nil =>
      simp only [List.nil_append, List.cons.injEq] at hsplit
      simpa using hfirst v n hsplit.1
  | cons first before =>
      simp only [List.cons_append, List.cons.injEq] at hsplit
      simpa [hsplit.1] using hrest before v n after hsplit.2

end Mention

open Mention

/-! ### Looking names up in order -/

/-- Binds the mentions that follow some declarations, up to the first name that is not declared. -/
def resolveFrom (names : List String) :
    List (Mention String) → Except FixtureError (List (Mention Variable))
  | [] => .ok []
  | .use x n :: rest =>
      match (Scope.of names).resolve? x with
      | none => .error (.unresolvedName x n)
      | some v => (resolveFrom names rest).map (.use v n :: ·)
  | .declare x :: rest =>
      (resolveFrom (names ++ [x]) rest).map (.declare (Fixture.nextVariable names x) :: ·)

/-- A name is looked up in vain if it is not declared. -/
theorem resolve?_eq_none {names : List String} {x : String} :
    (Scope.of names).resolve? x = none ↔ x ∉ names := by
  induction names using List.reverseRecOn with
  | nil => simp [Scope.of, variablesFrom, Scope.resolve?]
  | append_singleton names y ih =>
      rw [Scope.of_concat, Scope.resolve?, List.find?_cons]
      by_cases hy : y = x
      · simp [hy]
      · have hx : ¬ x = y := fun h => hy h.symm
        simpa [hy, hx, Scope.resolve?] using ih

theorem resolveFrom_append (names : List String) (ms ns : List (Mention String)) :
    resolveFrom names (ms ++ ns) =
      resolveFrom names ms >>= fun vs => (resolveFrom (names ++ declared ms) ns).map (vs ++ ·) := by
  induction ms generalizing names with
  | nil =>
      rw [List.nil_append, declared_nil, List.append_nil]
      cases resolveFrom names ns <;> rfl
  | cons m rest ih =>
      cases m with
      | use x n =>
          simp only [List.cons_append, resolveFrom, declared_use, ih]
          cases (Scope.of names).resolve? x with
          | none => rfl
          | some v =>
              cases resolveFrom names rest with
              | error e => rfl
              | ok vs => cases resolveFrom (names ++ declared rest) ns <;> rfl
      | declare x =>
          rw [List.cons_append, resolveFrom, resolveFrom, declared_declare, ih, List.append_assoc,
            List.singleton_append]
          cases resolveFrom (names ++ [x]) rest with
          | error e => rfl
          | ok vs => cases resolveFrom (names ++ x :: declared rest) ns <;> rfl

theorem declare_mem_of_resolve? {past : List (Mention String)} {x : String} {v : Variable}
    (h : (Scope.of (declared past)).resolve? x = some v) : declare x ∈ past := by
  by_contra hnot
  simp [resolve?_eq_none.mpr (mt mem_declared.mp hnot)] at h

theorem exists_resolveFrom_eq_ok (past ms : List (Mention String)) :
    (∃ vs, resolveFrom (declared past) ms = .ok vs) ↔ ResolvedAfter past ms := by
  induction ms generalizing past with
  | nil => simp [resolveFrom, ResolvedAfter]
  | cons m rest ih =>
      rw [resolvedAfter_cons, ← ih]
      cases m with
      | use x n =>
          cases hx : (Scope.of (declared past)).resolve? x with
          | none => simp [resolveFrom, hx, mt mem_declared.mpr (resolve?_eq_none.mp hx)]
          | some v =>
              have hmem := declare_mem_of_resolve? hx
              cases hrest : resolveFrom (declared past) rest <;>
                simp [resolveFrom, hx, hmem, hrest, Except.map]
      | declare x =>
          cases hrest : resolveFrom (declared past ++ [x]) rest <;>
            simp [resolveFrom, hrest, Except.map]

/-- Looking up fails at the first name that is not declared before it. -/
theorem resolveFrom_eq_error (past ms : List (Mention String)) (e : FixtureError) :
    resolveFrom (declared past) ms = .error e ↔
      ∃ x n, e = .unresolvedName x n ∧ FirstUnresolved past ms x n := by
  induction ms generalizing past with
  | nil => simp [resolveFrom, FirstUnresolved]
  | cons m rest ih =>
      cases m with
      | use x n =>
          cases hx : (Scope.of (declared past)).resolve? x with
          | none =>
              have hnot : declare x ∉ past := mt mem_declared.mpr (resolve?_eq_none.mp hx)
              simp [resolveFrom, hx, firstUnresolved_cons, hnot, eq_comm]
          | some v =>
              have hmem := declare_mem_of_resolve? hx
              have hrest := ih (past ++ [use x n])
              rw [declared_append, declared_use, declared_nil, List.append_nil] at hrest
              simp [resolveFrom, hx, map_eq_error, hrest, firstUnresolved_cons_of, hmem]
      | declare x =>
          have hrest := ih (past ++ [declare x])
          rw [declared_append, declared_declare, declared_nil] at hrest
          simp [resolveFrom, map_eq_error, hrest, firstUnresolved_cons_of]

/-- A name is bound to its last declaration. -/
theorem last_of_resolve? {names : List String} {past : List (Mention Variable)}
    (hpast : declared past = variablesFrom 0 names) {x : String} {v : Variable}
    (h : (Scope.of names).resolve? x = some v) :
    v.name = x ∧ ∃ earlier later, past = earlier ++ declare v :: later ∧
      ∀ w, declare w ∈ later → w.name ≠ v.name := by
  rw [Scope.of, ← hpast, Scope.resolve?] at h
  clear hpast
  induction past using List.reverseRecOn with
  | nil => simp at h
  | append_singleton past m ih =>
      cases m with
      | use u n =>
          obtain ⟨hname, earlier, later, rfl, hlater⟩ := ih (by simpa using h)
          exact ⟨hname, earlier, later ++ [use u n], by simp, by simpa using hlater⟩
      | declare u =>
          by_cases hu : u.name = x
          · obtain rfl : u = v := by simpa [hu] using h
            exact ⟨hu, past, [], by simp, by simp⟩
          · obtain ⟨hname, earlier, later, rfl, hlater⟩ := ih (by simpa [hu] using h)
            refine ⟨hname, earlier, later ++ [declare u], by simp, ?_⟩
            intro w hw
            rcases List.mem_append.mp hw with hw | hw
            · exact hlater w hw
            · simp only [List.mem_singleton, declare.injEq] at hw
              rw [hw, hname]
              exact hu

theorem resolveFrom_binds (past : List (Mention Variable)) {names : List String}
    (hpast : declared past = variablesFrom 0 names) {ms : List (Mention String)}
    {vs : List (Mention Variable)} (h : resolveFrom names ms = .ok vs) :
    vs.map (Mention.map Variable.name) = ms ∧ LastAfter past vs ∧
      declared vs = variablesFrom names.length (declared ms) := by
  induction ms generalizing names past vs with
  | nil =>
      cases h
      exact ⟨rfl, by simp [LastAfter], rfl⟩
  | cons m rest ih =>
      cases m with
      | use x n =>
          cases hx : (Scope.of names).resolve? x with
          | none => simp [resolveFrom, hx] at h
          | some v =>
              simp only [resolveFrom, hx] at h
              obtain ⟨ws, hws, rfl⟩ := map_eq_ok.mp h
              obtain ⟨hname, hlast⟩ := last_of_resolve? hpast hx
              obtain ⟨hnames, hrest, hdeclared⟩ := ih (past ++ [use v n]) (by simpa using hpast) hws
              refine ⟨by simp [Mention.map, hname, hnames], lastAfter_cons ?_ hrest, hdeclared⟩
              rintro w k hw
              cases hw
              exact hlast
      | declare x =>
          obtain ⟨ws, hws, rfl⟩ := map_eq_ok.mp h
          have hnext : declared (past ++ [declare (Fixture.nextVariable names x)]) =
              variablesFrom 0 (names ++ [x]) := by
            simp [hpast, variablesFrom_append, variablesFrom, Fixture.nextVariable]
          obtain ⟨hnames, hrest, hdeclared⟩ := ih _ hnext hws
          refine ⟨?_, lastAfter_cons (by simp) hrest, ?_⟩
          · simp [Mention.map, hnames, Fixture.nextVariable]
          · simp [hdeclared, variablesFrom, Fixture.nextVariable]

theorem map_decl_variablesFrom (k : Nat) (names : List String) :
    (variablesFrom k names).map Variable.decl = List.range' k names.length := by
  induction names generalizing k with
  | nil => rfl
  | cons x rest ih => simp [variablesFrom, ih, List.range'_succ]

theorem boundTo_of_resolveFrom {ms : List (Mention String)} {vs : List (Mention Variable)}
    (h : resolveFrom [] ms = .ok vs) : BoundTo ms vs := by
  obtain ⟨hnames, hlast, hdeclared⟩ := resolveFrom_binds [] rfl h
  refine ⟨hnames, hlast, ?_⟩
  rw [hdeclared, map_decl_variablesFrom, List.range_eq_range']
  rfl

/-! ### Mentions of a fixture -/

namespace Fixture

mutual

/-- The uses in an expression, operands from left to right. -/
def Expr.mentions (n : NodeId) : Expr → List (Mention String)
  | .lit _ => []
  | .var x => [.use x n]
  | .assign left right => left.mentions n ++ right.mentions n
  | .binary _ left right => left.mentions n ++ right.mentions n
  | .addrOf e => e.mentions n
  | .deref e => e.mentions n
  | .unary _ e => e.mentions n
  | .call _ args _ => Expr.listMentions n args
  | .paren e => e.mentions n
  | .member e _ _ => e.mentions n

def Expr.listMentions (n : NodeId) : List Expr → List (Mention String)
  | [] => []
  | e :: rest => e.mentions n ++ Expr.listMentions n rest

end

/-- An initialiser is read before the name that it initialises. -/
def Stmt.mentions (n : NodeId) : Stmt → List (Mention String)
  | decl x _ init => init.toList.flatMap (Expr.mentions n) ++ [.declare x]
  | expr e => e.mentions n
  | label _ => []

def Body.mentions (n : NodeId) : Body → List (Mention String)
  | start | finish | jump => []
  | instructions stmts => stmts.flatMap (Stmt.mentions n)
  | branch e => e.mentions n
  | loop e => e.mentions n
  | switch e => e.mentions n
  | ret value => value.toList.flatMap (Expr.mentions n)

/-- All uses and declarations in the order of reading: the parameters, then the nodes by ascending
id. -/
def mentions (f : Fixture) : List (Mention String) :=
  (f.params.map Param.name).map .declare ++ f.sortedNodes.flatMap fun n =>
    n.body.mentions n.id.toNat

end Fixture

/-! ### Mentions of a function -/

mutual

def Expr.mentions (n : NodeId) : Expr → List (Mention Variable)
  | .lit .. => []
  | .var _ _ v => [.use v n]
  | .binary _ _ _ left right => left.mentions n ++ right.mentions n
  | .unary _ _ _ e => e.mentions n
  | .call _ _ _ args _ => Expr.listMentions n args
  | .paren _ _ e => e.mentions n
  | .member _ _ e _ _ => e.mentions n

def Expr.listMentions (n : NodeId) : List Expr → List (Mention Variable)
  | [] => []
  | e :: rest => e.mentions n ++ Expr.listMentions n rest

end

def Stmt.mentions (n : NodeId) : Stmt → List (Mention Variable)
  | decl _ d => d.init.toList.flatMap (Expr.mentions n) ++ [.declare d.variable]
  | expr _ e => e.mentions n
  | label .. => []

def Step.mentions (n : NodeId) : Step → List (Mention Variable)
  | start | finish | jump => []
  | instructions stmts => stmts.flatMap (Stmt.mentions n)
  | branch e => e.mentions n
  | loop e => e.mentions n
  | switch e _ => e.mentions n
  | ret value _ => value.toList.flatMap (Expr.mentions n)

/-- The uses and declarations of nodes in order, the first of them being node `n`. -/
def Node.listMentions (n : NodeId) : List Node → List (Mention Variable)
  | [] => []
  | node :: rest => node.step.mentions n ++ Node.listMentions (n + 1) rest

/-- All uses and declarations in order, the parameters first. -/
def Function.mentions (f : Function) : List (Mention Variable) :=
  (f.params.map Decl.variable).map .declare ++ Node.listMentions 0 f.nodes

namespace Fixture

/-! ### Binding looks names up in order -/

mutual

theorem Expr.declared_mentions (n : NodeId) : ∀ e : Expr, declared (e.mentions n) = []
  | .lit _ => rfl
  | .var _ => rfl
  | .assign left right => by
      simp [Expr.mentions, Expr.declared_mentions n left, Expr.declared_mentions n right]
  | .binary _ left right => by
      simp [Expr.mentions, Expr.declared_mentions n left, Expr.declared_mentions n right]
  | .addrOf e => Expr.declared_mentions n e
  | .deref e => Expr.declared_mentions n e
  | .unary _ e => Expr.declared_mentions n e
  | .call _ args _ => Expr.declared_listMentions n args
  | .paren e => Expr.declared_mentions n e
  | .member e _ _ => Expr.declared_mentions n e

theorem Expr.declared_listMentions (n : NodeId) :
    ∀ es : List Expr, declared (Expr.listMentions n es) = []
  | [] => rfl
  | e :: rest => by
      simp [Expr.listMentions, Expr.declared_mentions n e, Expr.declared_listMentions n rest]

end

/-- A step and what follows it are looked up one after the other. -/
theorem map_bind_eq_resolveFrom {α β : Type} {x : Except FixtureError α}
    {next : α → Except FixtureError β} {names : List String} {ms ns : List (Mention String)}
    {here : α → List (Mention Variable)} {whole : β → List (Mention Variable)}
    (hx : x.map here = resolveFrom names ms)
    (hnext : ∀ a, x = .ok a →
      (next a).map whole = (resolveFrom (names ++ declared ms) ns).map (here a ++ ·)) :
    (x >>= next).map whole = resolveFrom names (ms ++ ns) := by
  rw [resolveFrom_append, ← hx]
  cases x with
  | error e => rfl
  | ok a => exact hnext a rfl

/-- A step that is not followed by another mention. -/
theorem map_bind_eq_map {α β : Type} {x : Except FixtureError α} {next : α → Except FixtureError β}
    {here : α → List (Mention Variable)} {whole : β → List (Mention Variable)}
    (hnext : ∀ a, (next a).map whole = .ok (here a)) : (x >>= next).map whole = x.map here := by
  cases x with
  | error e => rfl
  | ok a => exact hnext a

mutual

theorem Expr.map_mentions_bind {names : List String} {here : Setting}
    (hscope : here.scope = Scope.of names) :
    ∀ (e : Expr) (b : LoanScope.Body),
      (e.bind here b).map (fun r => r.1.mentions here.node) =
        resolveFrom names (e.mentions here.node)
  | .lit _, _ => rfl
  | .var x, b => by
      rw [Expr.bind, Expr.mentions, resolveFrom, hscope]
      cases (Scope.of names).resolve? x <;> rfl
  | .assign left right, b => by
      refine map_bind_eq_resolveFrom (Expr.map_mentions_bind hscope left b) ?_
      rintro ⟨left', b'⟩ -
      rw [Expr.declared_mentions, List.append_nil, ← Expr.map_mentions_bind hscope right b']
      dsimp only
      cases right.bind here b' <;> rfl
  | .binary op left right, b => by
      refine map_bind_eq_resolveFrom (Expr.map_mentions_bind hscope left b) ?_
      rintro ⟨left', b'⟩ -
      rw [Expr.declared_mentions, List.append_nil, ← Expr.map_mentions_bind hscope right b']
      dsimp only
      cases right.bind here b' <;> rfl
  | .addrOf e, b => (map_bind_eq_map fun _ => rfl).trans (Expr.map_mentions_bind hscope e b)
  | .deref e, b => (map_bind_eq_map fun _ => rfl).trans (Expr.map_mentions_bind hscope e b)
  | .unary op e, b => (map_bind_eq_map fun _ => rfl).trans (Expr.map_mentions_bind hscope e b)
  | .call callee args ty, b => by
      refine (map_bind_eq_map fun _ => ?_).trans (Expr.map_mentions_bindList hscope args b)
      cases ty <;> rfl
  | .paren e, b => (map_bind_eq_map fun _ => rfl).trans (Expr.map_mentions_bind hscope e b)
  | .member e field arrow, b => (map_bind_eq_map fun _ => rfl).trans
      (Expr.map_mentions_bind hscope e b)

theorem Expr.map_mentions_bindList {names : List String} {here : Setting}
    (hscope : here.scope = Scope.of names) :
    ∀ (es : List Expr) (b : LoanScope.Body),
      (Expr.bindList here b es).map (fun r => LoanScope.Expr.listMentions here.node r.1) =
        resolveFrom names (Expr.listMentions here.node es)
  | [], _ => rfl
  | e :: rest, b => by
      refine map_bind_eq_resolveFrom (Expr.map_mentions_bind hscope e b) ?_
      rintro ⟨e', b'⟩ -
      rw [Expr.declared_mentions, List.append_nil, ← Expr.map_mentions_bindList hscope rest b']
      dsimp only
      cases Expr.bindList here b' rest <;> rfl

end

theorem Expr.map_mentions_bindOption {names : List String} {here : Setting}
    (hscope : here.scope = Scope.of names) (value : Option Expr) (b : LoanScope.Body) :
    (Expr.bindOption here b value).map
      (fun r => r.1.toList.flatMap (LoanScope.Expr.mentions here.node)) =
      resolveFrom names (value.toList.flatMap (Expr.mentions here.node)) := by
  cases value with
  | none => rfl
  | some e =>
      simp only [Option.toList_some, List.flatMap_cons, List.flatMap_nil, List.append_nil]
      refine (map_bind_eq_map ?_).trans (Expr.map_mentions_bind hscope e b)
      rintro ⟨e', b'⟩
      simp [Except.map]

theorem declared_toList_flatMap (n : NodeId) (value : Option Expr) :
    declared (value.toList.flatMap (Expr.mentions n)) = [] := by
  cases value <;> simp [Expr.declared_mentions]

theorem Stmt.declared_mentions (n : NodeId) (s : Stmt) : declared (s.mentions n) = s.declares := by
  cases s <;> simp [Stmt.mentions, Stmt.declares, declared_toList_flatMap, Expr.declared_mentions]

theorem Stmt.map_mentions_bind {names : List String} {here : Setting} {b : LoanScope.Body}
    (hscope : here.scope = Scope.of names) (hsize : b.decls.size = names.length) (s : Stmt) :
    (s.bind here b).map (fun r => r.value.mentions here.node) =
      resolveFrom names (s.mentions here.node) := by
  cases s with
  | decl x ty init =>
      refine map_bind_eq_resolveFrom (Expr.map_mentions_bindOption hscope init _) ?_
      rintro ⟨init', b'⟩ hinit
      have hdecls : b'.decls.size = names.length := by
        rw [(Expr.bindOption_boundTo hscope hinit).2.trans (b.decls_addType ty), hsize]
      simp [declared_toList_flatMap, resolveFrom, Except.map, LoanScope.Stmt.mentions,
        Decl.variable, nextVariable, hdecls, LoanScope.Body.addDecl, LoanScope.Body.addStmt]
  | expr e => exact (map_bind_eq_map fun _ => rfl).trans (Expr.map_mentions_bind hscope e b)
  | label x => rfl

theorem Stmt.map_mentions_bindList {names : List String} {here : Setting} {b : LoanScope.Body}
    (hscope : here.scope = Scope.of names) (hsize : b.decls.size = names.length)
    (stmts : List Stmt) :
    (Stmt.bindList here b stmts).map
      (fun r => r.value.flatMap (LoanScope.Stmt.mentions here.node)) =
      resolveFrom names (stmts.flatMap (Stmt.mentions here.node)) := by
  induction stmts generalizing names here b with
  | nil => rfl
  | cons s rest ih =>
      refine map_bind_eq_resolveFrom (Stmt.map_mentions_bind hscope hsize s) ?_
      intro bound hbound
      obtain ⟨-, hscope', hsize'⟩ := Stmt.bind_boundTo hscope hsize hbound
      have hrest : (Stmt.bindList { here with scope := bound.scope } bound.body rest).map
            (fun r => r.value.flatMap (LoanScope.Stmt.mentions here.node)) =
          resolveFrom (names ++ s.declares) (rest.flatMap (Stmt.mentions here.node)) :=
        ih hscope' hsize'
      rw [Stmt.declared_mentions, ← List.flatMap, ← hrest]
      cases Stmt.bindList { here with scope := bound.scope } bound.body rest <;> rfl

theorem Body.declared_mentions (n : NodeId) (body : Body) :
    declared (body.mentions n) = body.declares := by
  cases body with
  | instructions stmts =>
      simp only [Body.mentions, Body.declares, Body.stmts]
      induction stmts with
      | nil => rfl
      | cons s rest ih => simp [Stmt.declared_mentions, ih]
  | branch e => exact Expr.declared_mentions n e
  | loop e => exact Expr.declared_mentions n e
  | switch e => exact Expr.declared_mentions n e
  | ret value => exact declared_toList_flatMap n value
  | _ => rfl

theorem Body.map_mentions_bind {names : List String} {here : Setting} {b : LoanScope.Body}
    (hscope : here.scope = Scope.of names) (hsize : b.decls.size = names.length) (body : Body) :
    (body.bind here b).map (fun r => r.value.mentions here.node) =
      resolveFrom names (body.mentions here.node) := by
  cases body with
  | start | finish | jump => rfl
  | instructions stmts =>
      exact (map_bind_eq_map fun _ => rfl).trans (Stmt.map_mentions_bindList hscope hsize stmts)
  | branch e => exact (map_bind_eq_map fun _ => rfl).trans (Expr.map_mentions_bind hscope e b)
  | loop e => exact (map_bind_eq_map fun _ => rfl).trans (Expr.map_mentions_bind hscope e b)
  | switch e => exact (map_bind_eq_map fun _ => rfl).trans (Expr.map_mentions_bind hscope e b)
  | ret value =>
      exact (map_bind_eq_map fun _ => rfl).trans (Expr.map_mentions_bindOption hscope value b)

/-- Nodes whose ids are their positions, the first of them being node `n`. -/
theorem Node.map_mentions_bindList (file : FileId) {names : List String} {scope : Scope}
    {b : LoanScope.Body} (hscope : scope = Scope.of names) (hsize : b.decls.size = names.length)
    {n : Nat} {nodes : List Node} (hids : misplacedId? n (nodes.map (·.id.toNat)) = none) :
    (Node.bindList file scope b nodes).map (fun r => LoanScope.Node.listMentions n r.1) =
      resolveFrom names (nodes.flatMap fun node => node.body.mentions node.id.toNat) := by
  induction nodes generalizing names scope b n with
  | nil => rfl
  | cons node rest ih =>
      rw [List.map_cons, misplacedId?] at hids
      split at hids
      · rename_i hid
        have hbody : (node.body.bind ⟨node.id.toNat, node.spanIn file, scope⟩ b).map
              (fun r => r.value.mentions node.id.toNat) =
            resolveFrom names (node.body.mentions node.id.toNat) :=
          Body.map_mentions_bind hscope hsize node.body
        refine map_bind_eq_resolveFrom hbody ?_
        intro step hstep
        obtain ⟨-, hscope', hsize'⟩ := Body.bind_boundTo hscope hsize hstep
        rw [Body.declared_mentions, ← List.flatMap, ← ih hscope' hsize' hids]
        dsimp only
        rw [hid]
        cases Node.bindList file step.scope step.body rest <;> rfl
      · cases hids

end Fixture

end LoanScope
