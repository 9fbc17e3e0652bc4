import TwoCnf.Proofs.Solver.Mirror

/-!
# Closure — the models that pass the check are closed under the graph

A formula has its clauses twice: as the list that a model is checked against, and as the edges of its
graph. A model that covers all variables cannot tell the two apart.

* `Model.Follows` — with the first literal of an edge, the model makes the second true;
* `Formula.Built.check_iff_follows` — a model passes the check exactly if it follows all edges;
* `Formula.Built.eval?_of_reaches`, `Formula.Built.exists_value` — such a model carries truth along paths,
  and gives the literals of a component one value;
* `check_iff_closed` — the same for the models that any solver is asked to check.
-/

namespace TwoCnf

/-- Where the model makes the first literal of an edge true, it makes the second true. -/
def Model.Follows (m : Model) (es : List (Lit × Lit)) : Prop :=
  ∀ l k, (l, k) ∈ es → l.eval? m = some true → k.eval? m = some true

namespace Formula.Built

variable {f : Formula} {m : Model}

/-! ## Models that cover all variables -/

theorem contains_of_mentions (hf : f.Built) {c : Clause} (hc : c ∈ f.clauses) {l : Lit}
    (hl : c.Mentions l.var) : f.contains l = true :=
  (hf.contains_iff l).2 ⟨c, hc, hl⟩

/-- A literal of the formula has the value that the stored valuation gives it. -/
theorem eval?_eq_isTrueIn_read (hf : f.Built) (hmax : f.maxVar ≤ m.numVars) {l : Lit}
    (hl : f.contains l = true) : l.eval? m = some (l.isTrueIn m.read) := by
  rcases (hf.contains_iff l).1 hl with ⟨c, hc, hmentions⟩
  have hle : l.var ≤ m.numVars := UInt32.le_trans (hf.le_maxVar c hc _ hmentions) hmax
  exact Lit.eval?_eq_isTrueIn (hf.ne_zero c hc _ hmentions) hle

theorem eval?_eq_some_true_iff (hf : f.Built) (hmax : f.maxVar ≤ m.numVars) {l : Lit}
    (hl : f.contains l = true) : l.eval? m = some true ↔ l.isTrueIn m.read = true := by
  rw [hf.eval?_eq_isTrueIn_read hmax hl, Option.some_inj]

theorem check_iff_isTrueIn (hf : f.Built) (hmax : f.maxVar ≤ m.numVars) :
    f.check m = true ↔ ∀ c ∈ f.clauses, c.isTrueIn m.read = true := by
  unfold check
  rw [Array.all_eq_true_iff_forall_mem]
  refine forall₂_congr ?_
  intro c hc
  have hleft : f.contains c.left = true := hf.contains_of_mentions hc (Or.inl rfl)
  have hright : f.contains c.right = true := hf.contains_of_mentions hc (Or.inr rfl)
  rw [Clause.holds_eq_isTrueIn (hf.eval?_eq_isTrueIn_read hmax hleft)
    (hf.eval?_eq_isTrueIn_read hmax hright)]

/-! ## Edges, paths and components -/

/-- Every edge comes from a clause, and every clause has an edge from the negation of its left literal to
its right one. -/
theorem check_iff_follows (hf : f.Built) (hsize : f.numbering.size < UInt32.size)
    (hmax : f.maxVar ≤ m.numVars) {es : List (Lit × Lit)} (hes : f.graph.edges = .ok es) :
    f.check m = true ↔ m.Follows es := by
  have hmem := (hf.coherent hsize).mem_edges_iff hsize hes
  -- along an edge, the model and the valuation that it stores make the same literals true
  have hcarry : ∀ c ∈ f.clauses, ∀ l k, c.Implies l k →
      ((l.eval? m = some true → k.eval? m = some true) ↔
        (l.isTrueIn m.read = true → k.isTrueIn m.read = true)) := by
    intro c hc l k himplies
    rw [hf.eval?_eq_some_true_iff hmax (hf.contains_of_mentions hc himplies.mentions.1),
      hf.eval?_eq_some_true_iff hmax (hf.contains_of_mentions hc himplies.mentions.2)]
  rw [hf.check_iff_isTrueIn hmax]
  constructor
  · intro hclauses l k hlk
    rcases (hmem l k).1 hlk with ⟨c, hc, himplies⟩
    exact (hcarry c hc l k himplies).2 (himplies.isTrueIn (hclauses c hc))
  · intro hfollows c hc
    have himplies : c.Implies c.left.neg c.right := Or.inl ⟨rfl, rfl⟩
    have hright := (hcarry c hc _ _ himplies).1 (hfollows _ _ ((hmem _ _).2 ⟨c, hc, himplies⟩))
    rw [Lit.isTrueIn_neg, Bool.not_eq_true'] at hright
    rw [Clause.isTrueIn, Bool.or_eq_true, or_iff_not_imp_left, Bool.not_eq_true]
    exact hright

/-- A model that passes the check carries the truth of a literal along every path. -/
theorem eval?_of_reaches (hf : f.Built) (hsize : f.numbering.size < UInt32.size)
    (hmax : f.maxVar ≤ m.numVars) (hcheck : f.check m = true) {u w : UInt32} {l k : Lit}
    (huw : f.graph.Reaches u w) (hu : f.graph.vertexOf? l = some u)
    (hw : f.graph.vertexOf? k = some w) (hl : l.eval? m = some true) : k.eval? m = some true := by
  have hk : f.contains k = true := Option.isSome_iff_exists.2 ⟨w, hw⟩
  rw [hf.eval?_eq_some_true_iff hmax hk]
  exact (hf.coherent hsize).isTrueIn_of_reaches ((hf.check_iff_isTrueIn hmax).1 hcheck) huw hu hw
    (Lit.isTrueIn_read hl)

/-- A model that passes the check gives the literals of a component one value. -/
theorem exists_value {p : Partition} (hf : f.Built) (hp : p.Represents f)
    (hmax : f.maxVar ≤ m.numVars) (hcheck : f.check m = true) {i : Nat} {lits : List Lit}
    (hlits : p.component i = .ok lits) : ∃ value, ∀ l ∈ lits, l.eval? m = some value := by
  cases lits with
  | nil =>
      exact ⟨true, fun _ hl => absurd hl List.not_mem_nil⟩
  | cons first rest =>
      have hfirst := (hp.tidy.mem_iff hlits first).1 List.mem_cons_self
      refine ⟨first.isTrueIn m.read, ?_⟩
      intro l hl
      have hnumber := (hp.tidy.mem_iff hlits l).1 hl
      rw [hf.eval?_eq_isTrueIn_read hmax ((hp.exists_number_iff l).1 ⟨i, hnumber⟩)]
      rw [hp.isTrueIn_eq l first i hnumber hfirst m.read ((hf.check_iff_isTrueIn hmax).1 hcheck)]

end Formula.Built

/-! ## Solvers -/

/-- A solver at any point of a run from any start, with fewer than `4294967296` vertices, and a model that
covers the variables up to the largest one. The model passes the check exactly if it makes the second
literal of every edge of the graph true where it makes the first true. A model that passes gives the
literals of every component one value, and with a literal it makes true all those that it reaches. -/
theorem check_iff_closed {start s : Solver} {given : List (Int32 × Int32)}
    {ops : List Solver.Operation} (hstart : Solver.Starts start given)
    (hs : (start.performAll ops).2 = s) (hsize : s.formula.graph.numVertices < UInt32.size)
    {m : Model} (hmax : s.formula.maxVar ≤ m.numVars) :
    ∃ g p es passed, (s.perform .graph).1 = .graph g ∧ (s.perform .partition).1 = .partition p ∧
      g.edges = .ok es ∧ (s.perform (.check m)).1 = .checked passed ∧
      (passed = true ↔ m.Follows es) ∧
      (passed = true →
        (∀ i lits, p.component i = .ok lits → ∃ value, ∀ l ∈ lits, l.eval? m = some value) ∧
        ∀ u w l k, g.vertexOf? l = some u → g.vertexOf? k = some w → g.Reaches u w →
          l.eval? m = some true → k.eval? m = some true) := by
  have hreflects := hstart.reflects_performAll hs
  have hf := hreflects.built
  rcases hreflects.exists_strong hsize with ⟨p, hanswers, _, hrep⟩
  rcases ((hf.coherent hsize).wellFormed_graph hsize).exists_edges with ⟨es, hes, _⟩
  refine ⟨s.formula.graph, p, es, s.formula.check m, hanswers.graph, hanswers.partition, hes, rfl,
    hf.check_iff_follows hsize hmax hes, ?_⟩
  intro hcheck
  constructor
  · intro i lits hlits
    exact hf.exists_value hrep hmax hcheck hlits
  · intro u w l k hu hw huw
    exact hf.eval?_of_reaches hsize hmax hcheck huw hu hw

/-- The variables `1` and `2` imply each other and a third one. Of two models that cover one variable more,
the one that makes all three true passes. The one that makes only `1` and `3` true fails, so there is an
edge that it does not follow. -/
theorem check_iff_closed_loopWithExit :
    ∃ s, (Solver.performAll .empty [.insert 1 (-2), .partition, .insert 2 (-1), .insert (-1) 3]).2 = s ∧
      s.formula.graph.numVertices < UInt32.size ∧
      s.formula.maxVar ≤ (Model.ofBits #[false, true, true, true, false]).numVars ∧
      s.formula.maxVar ≤ (Model.ofBits #[false, true, false, true, false]).numVars ∧
      (∃ g p es, (s.perform .graph).1 = .graph g ∧ (s.perform .partition).1 = .partition p ∧
        g.edges = .ok es ∧ (Model.ofBits #[false, true, true, true, false]).Follows es ∧
        ∀ i lits, p.component i = .ok lits → ∃ value, ∀ l ∈ lits,
          l.eval? (.ofBits #[false, true, true, true, false]) = some value) ∧
      ∃ g es, (s.perform .graph).1 = .graph g ∧ g.edges = .ok es ∧
        ¬ (Model.ofBits #[false, true, false, true, false]).Follows es := by
  obtain ⟨s, hs⟩ : ∃ s, (Solver.performAll .empty
      [.insert 1 (-2), .partition, .insert 2 (-1), .insert (-1) 3]).2 = s := ⟨_, rfl⟩
  have hsize : s.formula.graph.numVertices < UInt32.size := by
    rw [← hs]
    decide +kernel
  have hmax : s.formula.maxVar ≤ (Model.ofBits #[false, true, true, true, false]).numVars ∧
      s.formula.maxVar ≤ (Model.ofBits #[false, true, false, true, false]).numVars := by
    rw [← hs]
    decide +kernel
  have hpasses : s.formula.check (.ofBits #[false, true, true, true, false]) = true := by
    rw [← hs]
    decide +kernel
  have hfails : s.formula.check (.ofBits #[false, true, false, true, false]) = false := by
    rw [← hs]
    decide +kernel
  refine ⟨s, hs, hsize, hmax.1, hmax.2, ?_, ?_⟩
  · rcases check_iff_closed Solver.Starts.empty hs hsize hmax.1 with
      ⟨g, p, es, passed, hgraph, hpartition, hes, hchecked, hfollows, hclosed⟩
    have hpassed : passed = true := (Solver.Answer.checked.inj hchecked).symm.trans hpasses
    exact ⟨g, p, es, hgraph, hpartition, hes, hfollows.1 hpassed, (hclosed hpassed).1⟩
  · rcases check_iff_closed Solver.Starts.empty hs hsize hmax.2 with
      ⟨g, _, es, passed, hgraph, _, hes, hchecked, hfollows, _⟩
    have hfailed : passed = false := (Solver.Answer.checked.inj hchecked).symm.trans hfails
    refine ⟨g, es, hgraph, hes, ?_⟩
    rw [← hfollows, hfailed]
    exact Bool.false_ne_true

end TwoCnf
