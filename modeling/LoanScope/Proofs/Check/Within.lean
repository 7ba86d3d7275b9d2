import LoanScope.Proofs.Check.Phases
import LoanScope.Proofs.Fixture.SameCode
import LoanScope.Proofs.Fixture.Soundness

/-! Checks that differ in how long loans last. With more edges, more live names, a larger `'static`
or fewer kills, regions and loans in scope can only grow; and intersection never finds a loan that
union does not. -/

namespace LoanScope

/-! ### Flows -/

namespace Flow

/-- Every loan that flow `f` takes along an edge, flow `g` takes along it too. -/
structure Within (f g : Flow) : Prop where
  start : g.graph.start = f.graph.start
  edges : ∀ e ∈ f.graph.edges, e ∈ g.graph.edges
  makes : ∀ n, ∀ l ∈ f.makes n, l ∈ g.makes n
  holds : ∀ l n, f.holds l n → g.holds l n
  kills : ∀ n, ∀ l ∈ g.kills n, l ∈ f.kills n

variable {f g : Flow} {l : Nat} {n : NodeId}

theorem Within.carries (h : f.Within g) {w : Nat → NodeId} {i k : Nat} (hc : f.Carries l w i k) :
    g.Carries l w i k := by
  refine ⟨hc.lt, h.makes _ _ hc.made, ?_, ?_⟩
  · intro j hij hjk
    exact h.holds _ _ (hc.held j hij hjk)
  · intro j hij hjk hkill
    exact hc.kept j hij hjk (h.kills _ _ hkill)

theorem Within.mayEnter (h : f.Within g) (hmay : f.MayEnter l n) : g.MayEnter l n := by
  obtain ⟨w, k, hwalk, hreach, hlast, hc⟩ := hmay
  refine ⟨w, k, fun i hi => h.edges _ (hwalk i hi), ?_, hlast, h.carries hc⟩
  rw [h.start]
  exact Relation.ReflTransGen.mono (fun _ _ hedge => h.edges _ hedge) _ _ hreach

/-- A search by any policy finds no more than one by union in a larger flow. -/
theorem Within.mem_entryOf (h : f.Within g) (hunion : g.policy = .union) {j k : Nat}
    (hf : (f.after j).queue = []) (hg : (g.after k).queue = []) (hl : l ∈ (f.after j).entryOf n) :
    l ∈ (g.after k).entryOf n :=
  (mem_entryOf_union hunion hg).mpr (h.mayEnter (mayEnter_of_mem_entryOf hf hl))

end Flow

/-! ### Checks -/

namespace Check

/-- Checks of the same facts, the second with more edges, larger regions and no more kills. -/
structure Within (c d : Check) : Prop where
  facts : d.facts = c.facts
  start : d.function.graph.start = c.function.graph.start
  edges : ∀ e ∈ c.function.graph.edges, e ∈ d.function.graph.edges
  points : ∀ r, ∀ n ∈ c.regions.points r, n ∈ d.regions.points r
  kills : d.config.killLoansOnOverwrite → c.config.killLoansOnOverwrite

variable {c d c' d' : Check}

theorem Within.flow (h : c.Within d) : c.flow.Within d.flow := by
  refine ⟨h.start, h.edges, ?_, ?_, ?_⟩
  · intro n l hl
    simpa only [Check.flow, makes, h.facts] using hl
  · intro l n hheld
    simp only [Check.flow, holds, h.facts] at hheld ⊢
    cases hloan : c.facts.loans[l]? with
    | none => simp [hloan] at hheld
    | some loan =>
        simp only [hloan, decide_eq_true_eq] at hheld ⊢
        exact h.points _ _ hheld
  · intro n l hl
    by_cases hon : d.config.killLoansOnOverwrite = true
    · simpa only [Check.flow, Check.kills, h.facts, hon, h.kills hon, if_true] using hl
    · simp [Check.flow, Check.kills, hon] at hl

theorem Within.scopeAt (h : c.Within d) (hfiled : c.facts.Filed)
    (hunion : d.config.joinPolicy = .union) (hc : c.borrowCheck = some c')
    (hd : d.borrowCheck = some d') :
    ∀ n, ∀ l ∈ c'.scopeAt n, l ∈ d'.scopeAt n := by
  obtain ⟨_, j, hc', hcnil, hcscope⟩ := borrowCheck_of_drains hfiled (drains_of_borrowCheck hc)
  obtain ⟨_, k, hd', hdnil, hdscope⟩ :=
    borrowCheck_of_drains (h.facts ▸ hfiled) (drains_of_borrowCheck hd)
  rw [hc] at hc'
  rw [hd] at hd'
  cases hc'
  cases hd'
  intro n l hl
  rw [hcscope] at hl
  rw [hdscope]
  exact h.flow.mem_entryOf hunion hcnil hdnil hl

/-- A search that has ended after `k` visits leaves what it found by then. -/
theorem scopeAt_of_drained (hfiled : c.facts.Filed) {k : Nat} (hnil : (c.flow.after k).queue = []) :
    ∃ d, c.borrowCheck = some d ∧ ∀ n, d.scopeAt n = (c.flow.after k).entryOf n := by
  obtain ⟨d, j, hd, hjnil, hscope⟩ := borrowCheck_of_drains hfiled ⟨k, hnil⟩
  refine ⟨d, hd, fun n => ?_⟩
  have hsame : c.flow.after j = c.flow.after k := by
    rcases Nat.le_total j k with hjk | hkj
    · exact (Flow.after_of_drained hjnil hjk).symm
    · exact Flow.after_of_drained hnil hkj
  rw [hscope, hsame]

end Check

/-! ### Functions and configurations -/

/-- The second configuration kills no more, and its `'static` covers no less. -/
structure Config.Within (a b : Config) : Prop where
  kills : b.killLoansOnOverwrite → a.killLoansOnOverwrite
  static : a.staticCoversAllPoints → b.staticCoversAllPoints

/-- Functions with the same code, the second with more edges and more live names. -/
structure Function.Within (f g : Function) : Prop where
  code : f.SameCode g
  live : List.Forall₂ (fun m n => m.liveIn ⊆ n.liveIn) f.nodes g.nodes
  start : g.graph.start = f.graph.start
  size : g.graph.size = f.graph.size
  edges : ∀ e ∈ f.graph.edges, e ∈ g.graph.edges

/-- The check of a function with its constraints built. -/
structure Check.Built (f : Function) (config : Config) (c : Check) : Prop where
  function_eq : c.function = f
  config_eq : c.config = config
  facts_eq : f.facts = .ok c.facts
  regions_eq : c.regions = c.facts.regions
  constraints_eq : c.facts.constraints config f = .ok c.constraints

namespace Check

variable {f : Function} {config : Config} {c d : Check}

theorem built_of_bind (h : Check.start f config >>= Check.buildConstraints = .ok c) :
    c.Built f config := by
  obtain ⟨started, hstart, hbuild⟩ := bind_eq_ok.mp h
  obtain ⟨facts, hfacts, hend⟩ := bind_eq_ok.mp hstart
  obtain ⟨cs, hcs, hlast⟩ := bind_eq_ok.mp hbuild
  cases hend
  cases hlast
  exact ⟨rfl, rfl, hfacts, rfl, hcs⟩

/-- Once there are facts, constraints are built whatever the configuration. -/
theorem exists_built {facts : Facts} (h : f.facts = .ok facts) (config : Config) :
    ∃ c, Check.start f config >>= Check.buildConstraints = .ok c ∧ c.Built f config ∧
      c.facts = facts := by
  have hstart : ∃ c, Check.start f config = .ok c := ⟨_, bind_eq_ok.mpr ⟨facts, h, rfl⟩⟩
  obtain ⟨c, hc⟩ := hstart
  obtain ⟨cs, -, hbuild⟩ := exists_buildConstraints hc
  have hbind := bind_eq_ok.mpr ⟨c, hc, hbuild⟩
  have hbuilt := built_of_bind hbind
  exact ⟨_, hbind, hbuilt, Except.ok.inj (hbuilt.facts_eq.symm.trans h)⟩

/-- A whole check is a search after constraints were built and regions inferred. -/
theorem check_eq_ok :
    f.check config = .ok d ↔
      ∃ c, Check.start f config >>= Check.buildConstraints = .ok c ∧
        c.infer.borrowCheck = some d := by
  rw [Function.check]
  cases Check.start f config >>= Check.buildConstraints with
  | error e => simp
  | ok c => cases hd : c.infer.borrowCheck <;> simp [hd]

theorem Built.bare_infer (h : c.Built f config) : c.infer.regions.bare = c.facts.regions.bare := by
  rw [infer, Regions.bare_solve, h.regions_eq]

/-- Under union a function with facts is checked to the end. -/
theorem exists_check_union {facts : Facts} (h : f.facts = .ok facts) (config : Config)
    (hunion : config.joinPolicy = .union) : ∃ d, f.check config = .ok d := by
  obtain ⟨c, hbind, hbuilt, -⟩ := exists_built h config
  have hpolicy : c.infer.config.joinPolicy = .union :=
    (congrArg Config.joinPolicy hbuilt.config_eq).trans hunion
  obtain ⟨d, hd⟩ := exists_borrowCheck_union (c := c.infer)
    (Function.facts_filed hbuilt.facts_eq) hpolicy
  exact ⟨d, check_eq_ok.mpr ⟨c, hbind, hd⟩⟩

end Check

namespace Function.Within

variable {f g : Function} {a b : Config} {c d c' d' : Check}

theorem refl (f : Function) : f.Within f :=
  ⟨⟨rfl, rfl, rfl, rfl⟩, List.forall₂_same.mpr fun _ _ => List.Subset.refl _,
    rfl, rfl, fun _ h => h⟩

theorem liveAt (h : f.Within g) {facts : Facts} {n : NodeId} {r : RegionId}
    (hlive : facts.LiveAt f n r) :
    facts.LiveAt g n r := by
  obtain ⟨node, hnode, e, he, hname, hr⟩ := hlive
  obtain ⟨hlength, hsub⟩ := List.forall₂_iff_get.mp h.live
  obtain ⟨hn, rfl⟩ := List.getElem?_eq_some_iff.mp hnode
  have hn' : n < g.nodes.length := hlength ▸ hn
  exact ⟨g.nodes[n], List.getElem?_eq_getElem hn', e, he, hsub n hn hn' hname, hr⟩

/-- What is due to a region in the smaller check is due to it in the larger. -/
theorem infer (h : f.Within g) (hab : a.Within b) (hc : c.Built f a) (hd : d.Built g b) :
    c.infer.Within d.infer := by
  have hfacts : d.facts = c.facts :=
    Except.ok.inj (hd.facts_eq.symm.trans (h.code.facts.trans hc.facts_eq))
  have hfunction : c.infer.function = f ∧ d.infer.function = g := ⟨hc.function_eq, hd.function_eq⟩
  have hconfig : c.infer.config = a ∧ d.infer.config = b := ⟨hc.config_eq, hd.config_eq⟩
  refine ⟨hfacts, ?_, ?_, ?_, ?_⟩
  · rw [hfunction.1, hfunction.2, h.start]
  · rw [hfunction.1, hfunction.2]
    exact h.edges
  · intro r n hn
    rw [Check.infer, hc.regions_eq] at hn
    rw [Check.infer, hd.regions_eq]
    obtain ⟨s, hchain, hdue⟩ := (Facts.mem_points_solve hc.facts_eq hc.constraints_eq).mp hn
    refine (Facts.mem_points_solve hd.facts_eq hd.constraints_eq).mpr ⟨s, hfacts ▸ hchain, ?_⟩
    rcases hdue with hlive | ⟨hs, hlt, hcovers⟩
    · exact .inl (hfacts ▸ h.liveAt hlive)
    · exact .inr ⟨hs, h.size ▸ hlt, hab.static hcovers⟩
  · rw [hconfig.1, hconfig.2]
    exact hab.kills

/-- A check of the smaller function by any policy, and one of the larger by union. -/
theorem check (h : f.Within g) (hab : a.Within b) (hunion : b.joinPolicy = .union)
    (hc : f.check a = .ok c) (hd : g.check b = .ok d) :
    d.facts = c.facts ∧ d.regions.bare = c.regions.bare ∧
      (∀ r, ∀ n ∈ c.regions.points r, n ∈ d.regions.points r) ∧
      ∀ n, ∀ l ∈ c.scopeAt n, l ∈ d.scopeAt n := by
  obtain ⟨c₀, hc₀, hcsearch⟩ := Check.check_eq_ok.mp hc
  obtain ⟨d₀, hd₀, hdsearch⟩ := Check.check_eq_ok.mp hd
  have hcbuilt := Check.built_of_bind hc₀
  have hdbuilt := Check.built_of_bind hd₀
  have hwithin := h.infer hab hcbuilt hdbuilt
  have hfacts : d₀.facts = c₀.facts := hwithin.facts
  have hpolicy : d₀.infer.config.joinPolicy = .union :=
    (congrArg Config.joinPolicy hdbuilt.config_eq).trans hunion
  have hscope := hwithin.scopeAt (Function.facts_filed hcbuilt.facts_eq) hpolicy hcsearch hdsearch
  obtain ⟨s, -, rfl⟩ := Check.eq_of_borrowCheck hcsearch
  obtain ⟨t, -, rfl⟩ := Check.eq_of_borrowCheck hdsearch
  refine ⟨hfacts, ?_, hwithin.points, hscope⟩
  exact hdbuilt.bare_infer.trans (hfacts ▸ hcbuilt.bare_infer.symm)

end Function.Within

/-! ### The order of the configurations -/

/-- For a function that a check can be started on: under union, more loans are in scope if
overwriting a place does not end them; under intersection there are no more in scope than under
union, on every graph on which the search ends; and if `'static` covers the graph, then the facts
are the same, regions only have more points, and under union only more loans are in scope. -/
theorem Check.scopes_ordered (f : Function) (config : Config) (c : Check)
    (h : Check.start f config = .ok c) :
    (∀ static, ∃ kept killed,
      f.check ⟨.union, false, static⟩ = .ok kept ∧ f.check ⟨.union, true, static⟩ = .ok killed ∧
        (∀ n, ∀ l ∈ killed.scopeAt n, l ∈ kept.scopeAt n) ∧
        ∀ met, f.check ⟨.intersection, true, static⟩ = .ok met →
          ∀ n, ∀ l ∈ met.scopeAt n, l ∈ killed.scopeAt n) ∧
    (∀ policy kill, ∃ small large,
      Check.start f ⟨policy, kill, false⟩ >>= Check.buildConstraints = .ok small ∧
        Check.start f ⟨policy, kill, true⟩ >>= Check.buildConstraints = .ok large ∧
        small.facts = c.facts ∧ large.facts = c.facts ∧
        large.infer.regions.bare = small.infer.regions.bare ∧
        ∀ r, ∀ n ∈ small.infer.regions.points r, n ∈ large.infer.regions.points r) ∧
    ∀ kill, ∃ small large,
      f.check ⟨.union, kill, false⟩ = .ok small ∧ f.check ⟨.union, kill, true⟩ = .ok large ∧
        ∀ n, ∀ l ∈ small.scopeAt n, l ∈ large.scopeAt n := by
  have hfacts := (Check.start_eq_ok.mp h).1
  have hrefl := Function.Within.refl f
  have hcovers : ∀ policy kill, Config.Within ⟨policy, kill, false⟩ ⟨policy, kill, true⟩ :=
    fun _ _ => ⟨fun h => h, fun _ => rfl⟩
  refine ⟨?_, ?_, ?_⟩
  · intro static
    obtain ⟨kept, hkept⟩ := Check.exists_check_union hfacts ⟨.union, false, static⟩ rfl
    obtain ⟨killed, hkilled⟩ := Check.exists_check_union hfacts ⟨.union, true, static⟩ rfl
    refine ⟨kept, killed, hkept, hkilled, ?_, ?_⟩
    · have hfewer : Config.Within ⟨.union, true, static⟩ ⟨.union, false, static⟩ :=
        ⟨fun _ => rfl, fun h => h⟩
      exact (hrefl.check hfewer rfl hkilled hkept).2.2.2
    · intro met hmet
      have hsame : Config.Within ⟨.intersection, true, static⟩ ⟨.union, true, static⟩ :=
        ⟨fun h => h, fun h => h⟩
      exact (hrefl.check hsame rfl hmet hkilled).2.2.2
  · intro policy kill
    obtain ⟨small, hsmall, hsbuilt, hsfacts⟩ := Check.exists_built hfacts ⟨policy, kill, false⟩
    obtain ⟨large, hlarge, hlbuilt, hlfacts⟩ := Check.exists_built hfacts ⟨policy, kill, true⟩
    refine ⟨small, large, hsmall, hlarge, hsfacts, hlfacts, ?_, ?_⟩
    · rw [hsbuilt.bare_infer, hlbuilt.bare_infer, hsfacts, hlfacts]
    · exact (hrefl.infer (hcovers policy kill) hsbuilt hlbuilt).points
  · intro kill
    obtain ⟨small, hsmall⟩ := Check.exists_check_union hfacts ⟨.union, kill, false⟩ rfl
    obtain ⟨large, hlarge⟩ := Check.exists_check_union hfacts ⟨.union, kill, true⟩ rfl
    exact ⟨small, large, hsmall, hlarge,
      (hrefl.check (hcovers .union kill) rfl hsmall hlarge).2.2.2⟩

/-- Under intersection the search ends on the relay, and the loan of `x` is in scope behind the
loop. -/
theorem Fixture.scopeAt_relay_intersection :
    (relay.inferred? 0 ⟨.intersection, true, true⟩).any fun c =>
      (c.flow.after 6).queue = [] ∧ 0 ∈ (c.flow.after 6).entryOf 4 := by
  simp only [inferred?, toFunction, plan, edges, names, sortedNodes_relay]
  decide +kernel

/-- What intersection finds on the relay, union finds with and without kills. -/
theorem Check.scopes_ordered_relay :
    ∃ f c, Fixture.relay.toFunction 0 = .ok f ∧ Check.start f ⟨.intersection, true, true⟩ = .ok c ∧
      ∃ met killed kept, f.check ⟨.intersection, true, true⟩ = .ok met ∧
        f.check ⟨.union, true, true⟩ = .ok killed ∧ f.check ⟨.union, false, true⟩ = .ok kept ∧
        0 ∈ met.scopeAt 4 ∧ 0 ∈ killed.scopeAt 4 ∧ 0 ∈ kept.scopeAt 4 := by
  obtain ⟨d, hd, hends⟩ := (Option.any_eq_true _ _).mp Fixture.scopeAt_relay_intersection
  obtain ⟨f, built, hfun, hbuilt, rfl⟩ := Fixture.inferred?_eq_some.mp hd
  obtain ⟨hnil, hmem⟩ := of_decide_eq_true hends
  have hfiled := Function.facts_filed (Check.built_of_bind hbuilt).facts_eq
  obtain ⟨met, hsearch, hscope⟩ := Check.scopeAt_of_drained (c := built.infer) hfiled hnil
  have hmet := Check.check_eq_ok.mpr ⟨built, hbuilt, hsearch⟩
  obtain ⟨c, hstart, -⟩ := bind_eq_ok.mp hbuilt
  obtain ⟨hpolicies, -, -⟩ := Check.scopes_ordered f _ c hstart
  obtain ⟨kept, killed, hkept, hkilled, hmore, hfewer⟩ := hpolicies true
  have hin : 0 ∈ met.scopeAt 4 := by
    rw [hscope]
    exact hmem
  have hin' := hfewer met hmet 4 0 hin
  exact ⟨f, c, hfun, hstart, met, killed, kept, hmet, hkilled, hkept, hin, hin', hmore 4 0 hin'⟩

end LoanScope
