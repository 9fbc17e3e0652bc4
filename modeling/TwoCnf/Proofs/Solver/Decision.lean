import TwoCnf.Proofs.Solver.Halves
import TwoCnf.Proofs.Solver.Query
import TwoCnf.Proofs.Solver.Resolution

/-!
# Decision — the solver decides every list of clauses

* `Formula.Built.exists_analyse` — the analysis of a formula, with what its components are;
* `Solver.exists_answers` — all questions about a list of clauses are answered from one analysis;
* `decision_correct` — the answers of the solver, for every list over fewer variables than half the
  numbers.
-/

namespace TwoCnf

theorem Formula.Built.exists_analyse {f : Formula} (hf : f.Built)
    (hsize : f.numbering.size < UInt32.size) :
    ∃ a, f.analyse = .ok a ∧ a.partition.Represents f := by
  rcases hf.exists_represents hsize with ⟨p, hp, hrep⟩
  exact ⟨⟨f.graph, p⟩, Formula.analyse_eq_ok.2 ⟨rfl, hp⟩, hrep⟩

/-- A solver that has just been made looks at the analysis of its formula. -/
theorem Solver.snapshot_ofHalves (clauses : List (Int32 × Int32)) :
    (ofHalves clauses).snapshot = (ofHalves clauses).formula.analyse := by
  rw [snapshot, analysis_ofHalves]

theorem Solver.exists_answers {clauses : List (Int32 × Int32)}
    (hz : ∀ halves ∈ clauses, halves.1 ≠ 0 ∧ halves.2 ≠ 0)
    (hsize : (ofHalves clauses).formula.numbering.size < UInt32.size) :
    ∃ a : Analysis, a.graph = (ofHalves clauses).formula.graph ∧
      a.graph.partition = .ok a.partition ∧ a.partition.Represents (ofHalves clauses).formula ∧
      ∀ {α : Type} {question : Query α} {read : Analysis → α},
        question (ofHalves clauses) = (ofHalves clauses).reading read →
          answer? question clauses = some (read a) := by
  rcases (built_ofHalves hz).exists_analyse hsize with ⟨a, ha, hrep⟩
  rcases Formula.analyse_eq_ok.1 ha with ⟨hgraph, hpartition⟩
  have hsnapshot : (ofHalves clauses).snapshot = .ok a := (snapshot_ofHalves clauses).trans ha
  rw [← hgraph] at hpartition
  exact ⟨a, hgraph, hpartition, hrep,
    fun hquestion => answer?_of_reading (ofClauses_eq_ok.2 ⟨hz, rfl⟩) hsnapshot hquestion⟩

/-- Inserting any clauses without a zero half over fewer than `2147483648` variables leads to a solver
whose three questions agree, in whichever order they are asked: it finds the clauses satisfiable exactly
if some valuation makes them all true; then it gives a model of the variables up to the largest one that
makes every clause hold; and otherwise it names a contradiction. -/
theorem decision_correct (clauses : List (Int32 × Int32))
    (hz : ∀ halves ∈ clauses, halves.1 ≠ 0 ∧ halves.2 ≠ 0)
    (hvars : (varsOf clauses).toFinset.card < 2147483648) :
    ∃ s, Solver.insertMany .empty clauses = (.ok (), s) ∧
      ∃ after sat model verdict,
        (∀ t, t = s ∨ t = after → (Solver.isSatisfiable t).result = .ok (sat, after) ∧
          (Solver.model? t).result = .ok (model, after) ∧
          (Solver.verdict t).result = .ok (verdict, after)) ∧
        (sat = true ↔ ∃ v : Valuation, ∀ halves ∈ clauses, HalfTrueIn halves v) ∧
        (sat = true → ∃ A, model = some A ∧ verdict = .satisfiable A ∧ s.formula.check A = true ∧
          (∀ x ∈ varsOf clauses, x ≤ A.numVars) ∧
          (A.numVars ∈ varsOf clauses ∨ clauses = [] ∧ A.numVars = 0)) ∧
        (sat = false → model = none ∧ ∃ x, verdict = .contradiction x) := by
  have hbuilt := Solver.built_ofHalves hz
  have hsize := Solver.size_ofHalves_lt hz hvars
  have hcoherent := hbuilt.coherent hsize
  rcases hbuilt.exists_analyse hsize with ⟨a, ha, hrep⟩
  have hsnapshot : (Solver.ofHalves clauses).snapshot = .ok a :=
    (Solver.snapshot_ofHalves clauses).trans ha
  have hdecides := Formula.conflict?_eq_none_iff hbuilt hcoherent hrep
  refine ⟨Solver.ofHalves clauses, Solver.insertMany_empty hz,
    { Solver.ofHalves clauses with analysis := some a }, a.partition.conflict?.isNone,
    a.model? (Solver.ofHalves clauses).formula.maxVar,
    a.verdict (Solver.ofHalves clauses).formula.maxVar, ?_, ?_, ?_, ?_⟩
  -- whichever question comes first makes the analysis, and the others read it
  · rintro t (rfl | rfl)
    · rw [Solver.isSatisfiable_eq, Solver.model?_eq, Solver.verdict_eq]
      exact ⟨Solver.reading_of_ok hsnapshot _, Solver.reading_of_ok hsnapshot _,
        Solver.reading_of_ok hsnapshot _⟩
    · rw [Solver.isSatisfiable_eq, Solver.model?_eq, Solver.verdict_eq]
      exact ⟨rfl, rfl, rfl⟩
  · rw [Option.isNone_iff_eq_none, hdecides]
    exact Solver.satisfiable_ofHalves clauses
  · intro hsat
    have hnone : a.partition.conflict? = none := Option.isNone_iff_eq_none.1 hsat
    have hfree := hrep.tidy.conflict?_eq_none_iff.1 hnone
    refine ⟨a.partition.resolve (Solver.ofHalves clauses).formula.maxVar, ?_, ?_,
      Formula.check_resolve hbuilt hcoherent hrep hfree, Solver.maxVar_ofHalves hz⟩
    · rw [Analysis.model?, if_pos hsat]
    · rw [Analysis.verdict, hnone]
  · intro hunsat
    cases hconflict : a.partition.conflict? with
    | none =>
        rw [hconflict] at hunsat
        cases hunsat
    | some x =>
        refine ⟨?_, x, ?_⟩
        · rw [Analysis.model?, hconflict]
          rfl
        · rw [Analysis.verdict, hconflict]

theorem decision_of_three_clauses :
    (∀ halves ∈ [((1 : Int32), (-2 : Int32)), (-1, 2), (-2147483648, 2)],
      halves.1 ≠ 0 ∧ halves.2 ≠ 0) ∧
    (varsOf [(1, -2), (-1, 2), (-2147483648, 2)]).toFinset.card < 2147483648 ∧
    ∃ s, Solver.insertMany .empty [(1, -2), (-1, 2), (-2147483648, 2)] = (.ok (), s) ∧
      ∃ after A, (Solver.isSatisfiable s).result = .ok (true, after) ∧
        (Solver.model? s).result = .ok (some A, after) ∧ s.formula.check A = true ∧
        2147483648 ≤ A.numVars := by
  have hz : ∀ halves ∈ [((1 : Int32), (-2 : Int32)), (-1, 2), (-2147483648, 2)],
      halves.1 ≠ 0 ∧ halves.2 ≠ 0 := by
    simp only [List.forall_mem_cons, List.not_mem_nil, false_implies, implies_true, and_true]
    decide
  have hvars : (varsOf [(1, -2), (-1, 2), (-2147483648, 2)]).toFinset.card < 2147483648 := by
    decide +kernel
  rcases decision_correct _ hz hvars with
    ⟨s, hs, after, sat, model, verdict, hanswers, hsat, hmodel, _⟩
  have hall : ∀ halves ∈ [((1 : Int32), (-2 : Int32)), (-1, 2), (-2147483648, 2)],
      HalfTrueIn halves fun _ => true := by
    simp only [List.forall_mem_cons, List.not_mem_nil, false_implies, implies_true, and_true]
    decide
  have htrue : sat = true := hsat.2 ⟨_, hall⟩
  subst htrue
  rcases hmodel rfl with ⟨A, rfl, rfl, hcheck, hlargest, _⟩
  rcases hanswers s (Or.inl rfl) with ⟨hsatisfiable, hfound, _⟩
  exact ⟨hz, hvars, s, hs, after, A, hsatisfiable, hfound, hcheck, hlargest _ (by decide +kernel)⟩

end TwoCnf
