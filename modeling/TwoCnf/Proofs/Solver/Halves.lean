import TwoCnf.Proofs.Formula.Coverage
import TwoCnf.Solver.Loading
import TwoCnf.Valuation

/-!
# Halves — the solver of a list of signed halves

* `varsOf`, `HalfTrueIn` — what a list of signed halves is about and means;
* `Solver.ofHalves` — the solver that has these clauses and no analysis yet;
* `Solver.insertMany_empty`, `Solver.ofClauses_eq_ok` — it is what inserting the clauses and building from
  a list lead to, and `Solver.insertMany_eq_error` — where a list with a zero half is left;
* `Solver.satisfiable_ofHalves`, `Solver.size_ofHalves_lt`, `Solver.maxVar_ofHalves` — its formula says
  what the list says;
* `Loading.solver_ofListing`, `Loading.skipped_ofListing` — what loading a listing keeps and what it skips.
-/

namespace TwoCnf

/-! ## Lists of signed halves -/

/-- The variables of a list of clauses, in order and with repetitions. -/
def varsOf (clauses : List (Int32 × Int32)) : List UInt32 :=
  clauses.flatMap fun halves => [magnitude halves.1, magnitude halves.2]

/-- One of the two signed halves is true. -/
def HalfTrueIn (halves : Int32 × Int32) (v : Valuation) : Prop :=
  v (magnitude halves.1) = decide (0 < halves.1) ∨ v (magnitude halves.2) = decide (0 < halves.2)

instance instDecidableHalfTrueIn (halves : Int32 × Int32) (v : Valuation) :
    Decidable (HalfTrueIn halves v) :=
  inferInstanceAs (Decidable (_ ∨ _))

theorem Lit.isTrueIn_iff (l : Lit) (v : Valuation) : l.isTrueIn v = true ↔ v l.var = l.sign := by
  unfold Lit.isTrueIn
  cases l.sign <;> simp

theorem Clause.isTrueIn_ofHalves (halves : Int32 × Int32) (v : Valuation) :
    (Clause.ofHalves halves).isTrueIn v = true ↔ HalfTrueIn halves v := by
  unfold Clause.isTrueIn HalfTrueIn
  rw [Bool.or_eq_true, Lit.isTrueIn_iff, Lit.isTrueIn_iff]
  rfl

theorem mem_varsOf {clauses : List (Int32 × Int32)} {x : UInt32} :
    x ∈ varsOf clauses ↔ ∃ halves ∈ clauses, (Clause.ofHalves halves).Mentions x := by
  unfold varsOf
  rw [List.mem_flatMap]
  simp only [List.mem_cons, List.not_mem_nil, or_false]
  rfl

namespace Solver

/-! ## The solver of a list -/

/-- The solver of a list of signed halves, none of which is zero, without an analysis. -/
def ofHalves (clauses : List (Int32 × Int32)) : Solver :=
  clauses.foldl (fun s halves => s.add (Clause.ofHalves halves)) .empty

theorem ofHalves_snoc (clauses : List (Int32 × Int32)) (halves : Int32 × Int32) :
    ofHalves (clauses ++ [halves]) = (ofHalves clauses).add (Clause.ofHalves halves) := by
  unfold ofHalves
  rw [List.foldl_append]
  rfl

theorem analysis_ofHalves (clauses : List (Int32 × Int32)) : (ofHalves clauses).analysis = none := by
  rcases List.eq_nil_or_concat clauses with rfl | ⟨before, last, rfl⟩
  · rfl
  · rw [List.concat_eq_append, ofHalves_snoc]
    rfl

variable {clauses : List (Int32 × Int32)}

theorem clauses_ofHalves (clauses : List (Int32 × Int32)) :
    (ofHalves clauses).formula.clauses.toList = clauses.map Clause.ofHalves := by
  induction clauses using List.reverseRecOn with
  | nil =>
      rfl
  | append_singleton before halves ih =>
      rw [ofHalves_snoc, List.map_append, ← ih]
      show ((ofHalves before).formula.insert (Clause.ofHalves halves)).clauses.toList = _
      rw [Formula.clauses_insert, Array.toList_push]
      rfl

theorem built_ofHalves (hz : ∀ halves ∈ clauses, halves.1 ≠ 0 ∧ halves.2 ≠ 0) :
    (ofHalves clauses).formula.Built := by
  induction clauses using List.reverseRecOn with
  | nil =>
      exact .empty
  | append_singleton before halves ih =>
      rw [List.forall_mem_append] at hz
      have hne := hz.2 halves List.mem_cons_self
      have hsigned : Clause.ofSigned halves.1 halves.2 = .ok (Clause.ofHalves halves) :=
        Clause.ofSigned_eq_ok.2 ⟨hne, rfl⟩
      rw [ofHalves_snoc]
      exact (ih hz.1).insert (Formula.insertSigned_eq_ok.2 ⟨hsigned, rfl⟩)

/-! ## Ways to get there -/

theorem insert_of_ne_zero (s : Solver) {a b : Int32} (hne : a ≠ 0 ∧ b ≠ 0) :
    s.insert a b = (.ok (), s.add (Clause.ofHalves (a, b))) :=
  s.insert_of_ok (Clause.ofSigned_eq_ok.2 ⟨hne, rfl⟩)

theorem insert_of_zero (s : Solver) {a b : Int32} (hzero : a = 0 ∨ b = 0) :
    s.insert a b = (.error ⟨a, b⟩, s) :=
  s.insert_of_error (Clause.ofSigned_eq_error.2 ⟨hzero, rfl⟩)

/-- Only lists without a zero half are inserted to the end. -/
theorem insertMany_eq_ok {s t : Solver} :
    s.insertMany clauses = (.ok (), t) ↔ (∀ halves ∈ clauses, halves.1 ≠ 0 ∧ halves.2 ≠ 0) ∧
      t = clauses.foldl (fun s halves => s.add (Clause.ofHalves halves)) s := by
  induction clauses generalizing s with
  | nil =>
      simp [insertMany, eq_comm]
  | cons halves rest ih =>
      rcases halves with ⟨a, b⟩
      unfold insertMany
      by_cases hzero : a = 0 ∨ b = 0
      · rw [s.insert_of_zero hzero]
        constructor
        · intro h
          cases h
        · rintro ⟨hne, _⟩
          have hfirst := hne (a, b) List.mem_cons_self
          exact absurd hzero (not_or.2 hfirst)
      · have hne : a ≠ 0 ∧ b ≠ 0 := not_or.1 hzero
        rw [s.insert_of_ne_zero hne]
        simp only [ih, List.forall_mem_cons, List.foldl_cons]
        constructor
        · rintro ⟨hrest, ht⟩
          exact ⟨⟨hne, hrest⟩, ht⟩
        · rintro ⟨⟨_, hrest⟩, ht⟩
          exact ⟨hrest, ht⟩

/-- Other lists are inserted up to the first pair with a zero half, which is complained about. -/
theorem insertMany_eq_error {s t : Solver} {e : ZeroHalf} :
    s.insertMany clauses = (.error e, t) ↔ ∃ before halves after,
      clauses = before ++ halves :: after ∧ (∀ earlier ∈ before, earlier.1 ≠ 0 ∧ earlier.2 ≠ 0) ∧
        (halves.1 = 0 ∨ halves.2 = 0) ∧ e = ⟨halves.1, halves.2⟩ ∧
        t = before.foldl (fun s halves => s.add (Clause.ofHalves halves)) s := by
  induction clauses generalizing s with
  | nil =>
      simp [insertMany]
  | cons halves rest ih =>
      rcases halves with ⟨a, b⟩
      unfold insertMany
      by_cases hzero : a = 0 ∨ b = 0
      · rw [s.insert_of_zero hzero]
        constructor
        · intro h
          cases h
          exact ⟨[], (a, b), rest, rfl, by simp, hzero, rfl, rfl⟩
        · rintro ⟨before, halves, after, hsplit, hbefore, _, rfl, rfl⟩
          -- nothing stands in front of a pair that is refused at once
          cases before with
          | nil =>
              cases hsplit
              rfl
          | cons first before =>
              cases hsplit
              exact absurd hzero (not_or.2 (hbefore (a, b) List.mem_cons_self))
      · have hne : a ≠ 0 ∧ b ≠ 0 := not_or.1 hzero
        rw [s.insert_of_ne_zero hne]
        simp only [ih]
        constructor
        · rintro ⟨before, halves, after, rfl, hbefore, hhalves, rfl, rfl⟩
          exact ⟨(a, b) :: before, halves, after, rfl, List.forall_mem_cons.2 ⟨hne, hbefore⟩, hhalves,
            rfl, rfl⟩
        · rintro ⟨before, halves, after, hsplit, hbefore, hhalves, rfl, rfl⟩
          cases before with
          | nil =>
              cases hsplit
              exact absurd hhalves hzero
          | cons first before =>
              cases hsplit
              exact ⟨before, halves, after, rfl, (List.forall_mem_cons.1 hbefore).2, hhalves, rfl, rfl⟩

theorem insertMany_empty (hz : ∀ halves ∈ clauses, halves.1 ≠ 0 ∧ halves.2 ≠ 0) :
    Solver.insertMany .empty clauses = (.ok (), ofHalves clauses) :=
  insertMany_eq_ok.2 ⟨hz, rfl⟩

theorem ofClauses_eq_ok {s : Solver} :
    Solver.ofClauses clauses = .ok s ↔
      (∀ halves ∈ clauses, halves.1 ≠ 0 ∧ halves.2 ≠ 0) ∧ s = ofHalves clauses := by
  unfold Solver.ofClauses ofHalves
  rw [← insertMany_eq_ok]
  rcases insertMany .empty clauses with ⟨outcome, t⟩
  cases outcome <;> simp

/-! ## Its formula -/

theorem exists_mentions_iff (clauses : List (Int32 × Int32)) (x : UInt32) :
    (∃ c ∈ (ofHalves clauses).formula.clauses, c.Mentions x) ↔ x ∈ varsOf clauses := by
  simp only [mem_varsOf, Array.mem_def, clauses_ofHalves]
  constructor
  · rintro ⟨c, hc, hx⟩
    rcases List.mem_map.1 hc with ⟨halves, hhalves, rfl⟩
    exact ⟨halves, hhalves, hx⟩
  · rintro ⟨halves, hhalves, hx⟩
    exact ⟨_, List.mem_map_of_mem hhalves, hx⟩

theorem satisfiable_ofHalves (clauses : List (Int32 × Int32)) :
    Satisfiable (ofHalves clauses).formula.clauses.toList ↔
      ∃ v : Valuation, ∀ halves ∈ clauses, HalfTrueIn halves v := by
  unfold Satisfiable
  rw [clauses_ofHalves]
  simp only [List.forall_mem_map, Clause.isTrueIn_ofHalves]

/-- With fewer variables than half the numbers, there are fewer literals than numbers. -/
theorem size_ofHalves_lt (hz : ∀ halves ∈ clauses, halves.1 ≠ 0 ∧ halves.2 ≠ 0)
    (hvars : (varsOf clauses).toFinset.card < 2147483648) :
    (ofHalves clauses).formula.numbering.size < UInt32.size := by
  have hmem : ∀ c ∈ (ofHalves clauses).formula.clauses, ∀ x, c.Mentions x →
      x ∈ (varsOf clauses).toFinset := by
    intro c hc x hx
    exact List.mem_toFinset.2 ((exists_mentions_iff clauses x).1 ⟨c, hc, hx⟩)
  calc
    (ofHalves clauses).formula.numbering.size
        ≤ 2 * (varsOf clauses).toFinset.card := (built_ofHalves hz).size_le hmem
    _ < 2 * 2147483648 := Nat.mul_lt_mul_of_pos_left hvars (Nat.succ_pos 1)
    _ = UInt32.size := rfl

/-- The largest variable that the solver knows is the largest of the list. -/
theorem maxVar_ofHalves (hz : ∀ halves ∈ clauses, halves.1 ≠ 0 ∧ halves.2 ≠ 0) :
    (∀ x ∈ varsOf clauses, x ≤ (ofHalves clauses).formula.maxVar) ∧
      ((ofHalves clauses).formula.maxVar ∈ varsOf clauses ∨
        clauses = [] ∧ (ofHalves clauses).formula.maxVar = 0) := by
  have hbuilt := built_ofHalves hz
  constructor
  · intro x hx
    rcases (exists_mentions_iff clauses x).2 hx with ⟨c, hc, hmentions⟩
    exact hbuilt.le_maxVar c hc x hmentions
  · rcases hbuilt.maxVar_cases with ⟨hnone, hzero⟩ | hsome
    · have hnil : clauses.map Clause.ofHalves = [] := by
        rw [← clauses_ofHalves, hnone]
      exact Or.inr ⟨List.map_eq_nil_iff.1 hnil, hzero⟩
    · exact Or.inl ((exists_mentions_iff clauses _).1 hsome)

end Solver

/-! ## What loading keeps and skips -/

namespace Loading

theorem add_of_ne_zero (l : Loading) {halves : Int32 × Int32} (hne : halves.1 ≠ 0 ∧ halves.2 ≠ 0) :
    l.add halves = ⟨l.solver.add (Clause.ofHalves halves), l.skipped⟩ := by
  rcases l with ⟨solver, skipped⟩
  simp only [add, solver.insert_of_ne_zero hne]

theorem add_of_zero (l : Loading) {halves : Int32 × Int32} (hzero : halves.1 = 0 ∨ halves.2 = 0) :
    l.add halves = ⟨l.solver, l.skipped.push ⟨halves.1, halves.2⟩⟩ := by
  rcases l with ⟨solver, skipped⟩
  simp only [add, solver.insert_of_zero hzero]

/-- The clauses with a zero half are skipped in order, and the others are added. -/
theorem foldl_add (clauses : List (Int32 × Int32)) (l : Loading) :
    (clauses.foldl add l).solver =
        (admissible clauses).foldl (fun s halves => s.add (Clause.ofHalves halves)) l.solver ∧
      (clauses.foldl add l).skipped.toList = l.skipped.toList ++
        (clauses.filter fun halves => halves.1 = 0 ∨ halves.2 = 0).map fun halves =>
          ⟨halves.1, halves.2⟩ := by
  induction clauses generalizing l with
  | nil =>
      simp [admissible]
  | cons halves rest ih =>
      rw [List.foldl_cons, (ih _).1, (ih _).2]
      by_cases hzero : halves.1 = 0 ∨ halves.2 = 0
      · rw [add_of_zero l hzero, admissible_cons_of_zero hzero,
          List.filter_cons_of_pos (by simpa using hzero)]
        simp
      · have hne : halves.1 ≠ 0 ∧ halves.2 ≠ 0 := not_or.1 hzero
        rw [add_of_ne_zero l hne, admissible_cons_of_ne_zero hne,
          List.filter_cons_of_neg (by simpa using hzero)]
        exact ⟨rfl, rfl⟩

theorem solver_ofListing (l : Listing) :
    (ofListing l).solver = Solver.ofHalves (admissible l.clauses) :=
  (foldl_add l.clauses ⟨.empty, #[]⟩).1

theorem skipped_ofListing (l : Listing) :
    (ofListing l).skipped.toList =
      (l.clauses.filter fun halves => halves.1 = 0 ∨ halves.2 = 0).map fun halves =>
        ⟨halves.1, halves.2⟩ :=
  (foldl_add l.clauses ⟨.empty, #[]⟩).2

end Loading
end TwoCnf
