import TwoCnf.Proofs.Solver.Session

/-!
# Refusal — refused clauses leave no trace

There are three ways to bring a list of signed halves to a solver: inserting pair by pair and passing over
what is refused, loading a listing, and building a solver of the whole list or of none of it.

* `Solver.performAll_insertions` — inserting all pairs leads where inserting the admissible ones leads;
* `Loading.counts_add_skipped` — a listing's pairs are added or skipped, each of them;
* `Solver.ofClauses_eq_error` — a whole list is turned down for the first pair that is not admissible;
* `refusals_traceless` — the three ways agree on what they keep.
-/

namespace TwoCnf

namespace Solver

/-! ## Pair by pair -/

/-- The operations that insert some pairs in order. -/
def insertions (clauses : List (Int32 × Int32)) : List Operation :=
  clauses.map fun halves => .insert halves.1 halves.2

/-- Whatever is at hand, only the admissible pairs do something. -/
theorem performAll_insertions (s : Solver) (clauses : List (Int32 × Int32)) :
    (s.performAll (insertions clauses)).2 =
      (admissible clauses).foldl (fun s halves => s.add (Clause.ofHalves halves)) s := by
  induction clauses generalizing s with
  | nil =>
      rfl
  | cons halves rest ih =>
      show ((s.perform (.insert halves.1 halves.2)).2.performAll (insertions rest)).2 = _
      rw [perform_insert]
      by_cases hzero : halves.1 = 0 ∨ halves.2 = 0
      · -- a refused pair is passed over, and the solver with its analysis is the one before
        rw [if_pos hzero, admissible_cons_of_zero hzero]
        exact ih s
      · rw [if_neg hzero, admissible_cons_of_ne_zero (not_or.1 hzero)]
        exact ih _

/-! ## All or none -/

theorem ofClauses_eq_error {clauses : List (Int32 × Int32)} {e : ZeroHalf} :
    Solver.ofClauses clauses = .error e ↔ ∃ before halves after,
      clauses = before ++ halves :: after ∧ (∀ earlier ∈ before, earlier.1 ≠ 0 ∧ earlier.2 ≠ 0) ∧
        (halves.1 = 0 ∨ halves.2 = 0) ∧ e = ⟨halves.1, halves.2⟩ := by
  have hmany : Solver.ofClauses clauses = .error e ↔
      ∃ t, insertMany .empty clauses = (.error e, t) := by
    unfold Solver.ofClauses
    rcases insertMany .empty clauses with ⟨outcome, t⟩
    cases outcome <;> simp
  simp only [hmany, insertMany_eq_error]
  constructor
  · rintro ⟨_, before, halves, after, hsplit, hbefore, hzero, he, _⟩
    exact ⟨before, halves, after, hsplit, hbefore, hzero, he⟩
  · rintro ⟨before, halves, after, hsplit, hbefore, hzero, he⟩
    exact ⟨_, before, halves, after, hsplit, hbefore, hzero, he, rfl⟩

end Solver

/-! ## As a listing -/

/-- Every pair of a listing is either added or skipped. -/
theorem Loading.counts_add_skipped (l : Listing) :
    (ofListing l).solver.formula.counts.clauses + (ofListing l).skipped.size = l.clauses.length := by
  have hadded : (ofListing l).solver.formula.counts.clauses = (admissible l.clauses).length := by
    show (ofListing l).solver.formula.clauses.size = _
    rw [solver_ofListing, ← Array.length_toList, Solver.clauses_ofHalves, List.length_map]
  have hskipped : (ofListing l).skipped.size =
      (l.clauses.filter fun halves => !decide (halves.1 ≠ 0 ∧ halves.2 ≠ 0)).length := by
    rw [← Array.length_toList, skipped_ofListing, List.length_map]
    congr 2
    funext halves
    simp [or_iff_not_imp_left]
  rw [hadded, hskipped]
  exact (List.length_eq_length_filter_add _).symm

/-- Any solver, with or without an analysis at hand, and any list of signed halves. Inserting all pairs and
passing over what is refused leads to the same solver as inserting the admissible pairs, of which none is
refused. Loading the pairs under any declared counts gives the solver of the admissible ones, and each pair
is added or skipped. Building a solver of all pairs fails exactly if some half is zero, and the complaint is
about the first pair with such a half. -/
theorem refusals_traceless (s : Solver) (clauses : List (Int32 × Int32)) :
    (s.performAll (Solver.insertions clauses)).2 =
        (s.performAll (Solver.insertions (admissible clauses))).2 ∧
      s.insertMany (admissible clauses) = (.ok (), (s.performAll (Solver.insertions clauses)).2) ∧
      (∀ declaredVars declaredClauses, ∃ loading,
        Loading.ofListing ⟨declaredVars, declaredClauses, clauses⟩ = loading ∧
        Solver.ofClauses (admissible clauses) = .ok loading.solver ∧
        loading.solver.formula.counts.clauses + loading.skipped.size = clauses.length) ∧
      ((∃ e, Solver.ofClauses clauses = .error e) ↔
        ∃ halves ∈ clauses, halves.1 = 0 ∨ halves.2 = 0) ∧
      ∀ e, Solver.ofClauses clauses = .error e → ∃ before halves after,
        clauses = before ++ halves :: after ∧ (∀ earlier ∈ before, earlier.1 ≠ 0 ∧ earlier.2 ≠ 0) ∧
          (halves.1 = 0 ∨ halves.2 = 0) ∧ e = ⟨halves.1, halves.2⟩ := by
  refine ⟨?_, ?_, ?_, ?_, fun e => Solver.ofClauses_eq_error.1⟩
  · rw [Solver.performAll_insertions, Solver.performAll_insertions,
      admissible_eq_self ne_zero_of_mem_admissible]
  · exact Solver.insertMany_eq_ok.2 ⟨ne_zero_of_mem_admissible, Solver.performAll_insertions s clauses⟩
  · intro declaredVars declaredClauses
    refine ⟨_, rfl, ?_, Loading.counts_add_skipped _⟩
    exact Solver.ofClauses_eq_ok.2 ⟨ne_zero_of_mem_admissible, Loading.solver_ofListing _⟩
  · constructor
    · rintro ⟨e, he⟩
      rcases Solver.ofClauses_eq_error.1 he with ⟨before, halves, after, rfl, _, hzero, _⟩
      exact ⟨halves, by simp, hzero⟩
    · rintro ⟨halves, hmem, hzero⟩
      cases hbuilt : Solver.ofClauses clauses with
      | error e =>
          exact ⟨e, rfl⟩
      | ok t =>
          -- a list that is accepted has no zero half
          have hne := (Solver.ofClauses_eq_ok.1 hbuilt).1 halves hmem
          exact absurd hzero (not_or.2 hne)

end TwoCnf
