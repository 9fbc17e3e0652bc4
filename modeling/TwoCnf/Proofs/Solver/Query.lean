import TwoCnf.Solver.Basic

/-!
# Query — what a question to a solver comes to

Every question looks at one analysis: the one at hand, or else the one of the formula. It reads its
answer off that analysis and leaves it at hand. However many times it looks, there is one search if no
analysis is at hand, and none otherwise.

* `Formula.analyse` — the analysis of a formula, and `Solver.snapshot` — the analysis that a question looks
  at;
* `Solver.reading` — answering from the snapshot and keeping it, with the searches this takes;
* `Solver.graph_eq` to `Solver.verdict_eq` — each question is a reading;
* `Solver.answer?` — the answer to a question about a list of clauses.
-/

namespace TwoCnf

namespace Analysis

/-- The model that an analysis gives for the variables up to `n`, if there is no conflict. -/
def model? (a : Analysis) (n : UInt32) : Option Model :=
  if a.partition.conflict?.isNone then some (a.partition.resolve n) else none

/-- The conflict of an analysis, or else its model for the variables up to `n`. -/
def verdict (a : Analysis) (n : UInt32) : Verdict :=
  match a.partition.conflict? with
  | some var => .contradiction var
  | none => .satisfiable (a.partition.resolve n)

end Analysis

/-- Analyses a formula. -/
def Formula.analyse (f : Formula) : Except Fault Analysis :=
  f.graph.partition.map fun p => ⟨f.graph, p⟩

theorem Formula.analyse_eq_ok {f : Formula} {a : Analysis} :
    f.analyse = .ok a ↔ a.graph = f.graph ∧ f.graph.partition = .ok a.partition := by
  unfold Formula.analyse
  cases hp : f.graph.partition with
  | error fault =>
      simp [Except.map]
  | ok p =>
      simp only [Except.map, Except.ok.injEq]
      constructor
      · rintro rfl
        exact ⟨rfl, rfl⟩
      · rintro ⟨hgraph, rfl⟩
        rw [← hgraph]

namespace Solver

/-- The analysis at hand, or else that of the formula. -/
def snapshot (s : Solver) : Except Fault Analysis :=
  match s.analysis with
  | some a => .ok a
  | none => s.formula.analyse

/-- The searches that it takes to have an analysis at hand. -/
def searches (s : Solver) : List SearchRecord :=
  match s.analysis with
  | some _ => []
  | none => s.formula.graph.search.searches

/-- Reads an answer off the snapshot, which stays at hand. -/
def reading {α : Type} (s : Solver) (read : Analysis → α) : Recorded (α × Solver) :=
  ⟨s.snapshot.map fun a => (read a, { s with analysis := some a }), s.searches⟩

theorem reading_of_ok {α : Type} {s : Solver} {a : Analysis} (h : s.snapshot = .ok a)
    (read : Analysis → α) :
    (s.reading read).result = .ok (read a, { s with analysis := some a }) := by
  rw [reading, h]
  rfl

theorem reading_of_error {α : Type} {s : Solver} {fault : Fault} (h : s.snapshot = .error fault)
    (read : Analysis → α) : (s.reading read).result = .error fault := by
  rw [reading, h]
  rfl

/-- Without an analysis at hand it takes one search. -/
theorem searches_of_none {s : Solver} {a : Analysis} (h : s.analysis = none)
    (ha : s.formula.analyse = .ok a) :
    s.searches = [⟨a.graph.numVertices, a.graph.numEdges, a.partition.size⟩] := by
  rcases Formula.analyse_eq_ok.1 ha with ⟨hgraph, hp⟩
  rw [searches, h, hgraph]
  exact Graph.searches_search hp

theorem analysed_eq (s : Solver) : analysed s = s.reading id := by
  cases s with
  | mk formula analysis =>
      cases analysis with
      | some a =>
          rfl
      | none =>
          -- the search is lifted into the state first, and then its result is put at hand
          show ((formula.graph.search >>= fun p => pure (p, Solver.mk formula none)) >>= fun r =>
              pure (Analysis.mk formula.graph r.1,
                Solver.mk formula (some (Analysis.mk formula.graph r.1)))) =
            Recorded.mk ((formula.graph.search.result.map (Analysis.mk formula.graph)).map fun a =>
              (a, Solver.mk formula (some a))) formula.graph.search.searches
          rw [Recorded.bind_pure_eq, Recorded.bind_pure_eq]
          cases formula.graph.search.result <;> rfl

/-- A question that starts with a reading is a reading, if it goes on from the analysis at hand. -/
theorem bind_eq_reading {α β : Type} {s : Solver} {first : Query β} {readFirst : Analysis → β}
    (hfirst : first s = s.reading readFirst) (next : β → Query α) (read : Analysis → α)
    (hnext : ∀ a, next (readFirst a) { s with analysis := some a } =
      .ofResult (.ok (read a, { s with analysis := some a }))) :
    (first >>= next) s = s.reading read := by
  show (first s >>= fun r => next r.1 r.2) = _
  rw [hfirst]
  cases hs : s.snapshot with
  | error fault =>
      apply Recorded.ext
      · rw [Recorded.result_bind, reading_of_error hs, reading_of_error hs]
        rfl
      · exact Recorded.searches_bind_of_error (reading_of_error hs readFirst) _
  | ok a =>
      apply Recorded.ext
      · rw [Recorded.result_bind, reading_of_ok hs, reading_of_ok hs]
        exact congrArg Recorded.result (hnext a)
      -- what comes next finds the analysis at hand and takes no search
      · rw [Recorded.searches_bind_of_ok (reading_of_ok hs readFirst), hnext a]
        exact List.append_nil _

theorem graph_eq (s : Solver) : graph s = s.reading Analysis.graph :=
  bind_eq_reading (analysed_eq s) _ _ fun _ => rfl

theorem partition_eq (s : Solver) : partition s = s.reading Analysis.partition :=
  bind_eq_reading (analysed_eq s) _ _ fun _ => rfl

theorem conflict?_eq (s : Solver) : conflict? s = s.reading fun a => a.partition.conflict? :=
  bind_eq_reading (partition_eq s) _ _ fun _ => rfl

theorem isSatisfiable_eq (s : Solver) :
    isSatisfiable s = s.reading fun a => a.partition.conflict?.isNone :=
  bind_eq_reading (conflict?_eq s) _ _ fun _ => rfl

theorem resolve_eq (s : Solver) :
    resolve s = s.reading fun a => a.partition.resolve s.formula.maxVar :=
  bind_eq_reading (partition_eq s) _ _ fun _ => rfl

theorem model?_eq (s : Solver) : model? s = s.reading fun a => a.model? s.formula.maxVar := by
  refine bind_eq_reading (isSatisfiable_eq s) _ _ ?_
  intro a
  unfold Analysis.model?
  cases a.partition.conflict? with
  | some x =>
      rfl
  | none =>
      exact bind_eq_reading (resolve_eq { s with analysis := some a }) _
        (fun a => some (a.partition.resolve s.formula.maxVar)) fun _ => rfl

theorem verdict_eq (s : Solver) : verdict s = s.reading fun a => a.verdict s.formula.maxVar := by
  refine bind_eq_reading (conflict?_eq s) _ _ ?_
  intro a
  unfold Analysis.verdict
  cases a.partition.conflict? with
  | some x =>
      rfl
  | none =>
      exact bind_eq_reading (resolve_eq { s with analysis := some a }) _
        (fun a => Verdict.satisfiable (a.partition.resolve s.formula.maxVar)) fun _ => rfl

/-! ## Questions about lists of clauses -/

/-- The answer to the first question about a list of clauses, if the list is accepted and there is an
answer. -/
def answer? {α : Type} (question : Query α) (clauses : List (Int32 × Int32)) : Option α :=
  match ofClauses clauses with
  | .error _ => none
  | .ok s =>
      match (question s).result with
      | .error _ => none
      | .ok (answer, _) => some answer

theorem answer?_of_reading {α : Type} {question : Query α} {clauses : List (Int32 × Int32)}
    {s : Solver} {a : Analysis} {read : Analysis → α} (hs : ofClauses clauses = .ok s)
    (ha : s.snapshot = .ok a) (hquestion : question s = s.reading read) :
    answer? question clauses = some (read a) := by
  unfold answer?
  rw [hs]
  simp only
  rw [hquestion, reading_of_ok ha]

end Solver
end TwoCnf
