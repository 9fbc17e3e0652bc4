import TwoCnf.Proofs.Reference.Propagation
import TwoCnf.Proofs.Solver.Session
import TwoCnf.Proofs.Solver.Table
import TwoCnf.Reference.Referee

/-!
# Referee — a second opinion is the same opinion

* `Referee.getElem?_table` — the table of a model has the value of each variable that the model names;
* `Referee.Call`, `Referee.performAll` — adding and deciding in any order;
* `Referee.Serves` — the engine has been given the clauses added so far, and `maxVar` is the largest of
  their variables. Every call keeps it (`Referee.Serves.perform`), and so does a run of them;
* `Referee.Solves` — a table that makes clauses true and has just the places for their variables;
* `Referee.Serves.solve` — what a decision comes to;
* `referee_agrees` — with a right engine behind it, the referee is right after any calls, and about every
  solver it agrees with that solver.
-/

namespace TwoCnf
namespace Referee

/-! ## Tables -/

/-- A place keeps the value that all literals agree on. -/
theorem getElem?_foldl_set {v : Nat → Bool} {n : Nat} (lits : List Int)
    (hlits : ∀ x ∈ lits, IntTrueIn v x) (bits : Array Bool) (hn : n < bits.size)
    (h : (∃ x ∈ lits, x.natAbs = n) ∨ bits[n]? = some (v n)) :
    (lits.foldl (fun bits x => bits.setIfInBounds x.natAbs (decide (0 < x))) bits)[n]? =
      some (v n) := by
  induction lits generalizing bits with
  | nil =>
      exact h.resolve_left (by simp)
  | cons x lits ih =>
      rcases List.forall_mem_cons.1 hlits with ⟨hx, hrest⟩
      refine ih hrest _ (by simpa using hn) ?_
      by_cases hset : x.natAbs = n
      -- whatever the place held, it holds the right value from here on
      · right
        rw [← hset] at hn ⊢
        rw [Array.getElem?_setIfInBounds_self_of_lt hn, ← hx]
      · rw [Array.getElem?_setIfInBounds_ne hset]
        rcases h with ⟨y, hy, hyn⟩ | hbit
        · rcases List.mem_cons.1 hy with rfl | hlater
          · exact absurd hyn hset
          · exact Or.inl ⟨y, hlater, hyn⟩
        · exact Or.inr hbit

theorem size_table (maxVar : UInt32) (lits : List Int) :
    (table maxVar lits).size = maxVar.toNat + 1 := by
  have hfold : ∀ (lits : List Int) (bits : Array Bool),
      (lits.foldl (fun bits x => bits.setIfInBounds x.natAbs (decide (0 < x))) bits).size =
        bits.size := by
    intro lits
    induction lits with
    | nil =>
        intro bits
        rfl
    | cons x lits ih =>
        intro bits
        rw [List.foldl_cons, ih, Array.size_setIfInBounds]
  rw [table, hfold, Array.size_replicate]

theorem getElem?_table {v : Nat → Bool} {lits : List Int} (hlits : ∀ x ∈ lits, IntTrueIn v x)
    {maxVar : UInt32} {n : Nat} (hn : n ≤ maxVar.toNat) (hnamed : ∃ x ∈ lits, x.natAbs = n) :
    (table maxVar lits)[n]? = some (v n) := by
  refine getElem?_foldl_set lits hlits _ ?_ (Or.inl hnamed)
  rw [Array.size_replicate]
  exact Nat.lt_succ_of_le hn

/-- The place that is not used stays false, whatever is named. -/
theorem getElem?_table_zero (maxVar : UInt32) (lits : List Int) :
    (table maxVar lits)[0]? = some false := by
  have hfold : ∀ (lits : List Int) (bits : Array Bool), bits[0]? = some false →
      (lits.foldl (fun bits x => bits.setIfInBounds x.natAbs (decide (0 < x))) bits)[0]? =
        some false := by
    intro lits
    induction lits with
    | nil =>
        intro bits hbits
        exact hbits
    | cons x lits ih =>
        intro bits hbits
        apply ih
        by_cases hx : x = 0
        · have hpos : 0 < bits.size := (Array.getElem?_eq_some_iff.1 hbits).1
          rw [hx]
          exact Array.getElem?_setIfInBounds_self_of_lt hpos
        · rw [Array.getElem?_setIfInBounds_ne (Int.natAbs_ne_zero.2 hx)]
          exact hbits
  apply hfold
  simp

/-! ## Calls -/

/-- What can be asked of a referee. -/
inductive Call where
  | add (c : Clause)
  | solve

/-- The clauses that a call adds. -/
def Call.added : Call → List Clause
  | .add c => [c]
  | .solve => []

variable {e : Engine} {Accepts : Nat → Prop}

/-- The referee after a call. -/
def perform (r : Referee e) : Call → Referee e
  | .add c => r.add c
  | .solve => r.solve.2

/-- The referee after calls in order. -/
def performAll (r : Referee e) (calls : List Call) : Referee e :=
  calls.foldl perform r

/-- The signed integers of a clause. -/
def ints (c : Clause) : Int × Int :=
  (c.left.toInt, c.right.toInt)

/-- The largest variable of clauses, `0` for no clauses. -/
structure Largest (clauses : List Clause) (n : UInt32) : Prop where
  le : ∀ c ∈ clauses, ∀ x, c.Mentions x → x ≤ n
  mem : (∃ c ∈ clauses, c.Mentions n) ∨ clauses = [] ∧ n = 0

theorem Largest.snoc {clauses : List Clause} {n : UInt32} (h : Largest clauses n) (c : Clause) :
    Largest (clauses ++ [c]) (max (max n c.left.var) c.right.var) where
  le := by
    rcases le_max_max (x := n) (y := c.left.var) (z := c.right.var) with ⟨hn, hleft, hright⟩
    rw [List.forall_mem_append]
    constructor
    · intro d hd x hx
      exact UInt32.le_trans (h.le d hd x hx) hn
    · intro d hd x hx
      rw [List.mem_singleton.1 hd] at hx
      rcases hx with rfl | rfl
      · exact hleft
      · exact hright
  mem := by
    have hlast : c ∈ clauses ++ [c] := by simp
    rcases max_max_cases n c.left.var c.right.var with hn | hleft | hright
    · rw [hn]
      rcases h.mem with ⟨d, hd, hmentions⟩ | ⟨_, rfl⟩
      · exact Or.inl ⟨d, List.mem_append_left _ hd, hmentions⟩
      -- the clause is the first one, and its variables are zero as well
      · have hzero : c.left.var ≤ 0 := by
          rw [← hn]
          exact le_max_max.2.1
        exact Or.inl ⟨c, hlast, Or.inl (UInt32.le_antisymm UInt32.zero_le hzero)⟩
    · exact Or.inl ⟨c, hlast, Or.inl hleft⟩
    · exact Or.inl ⟨c, hlast, Or.inr hright⟩

/-- The engine has been given the clauses added so far, whose variables it accepts, and the largest of these
variables is known. -/
structure Serves (r : Referee e) (Accepts : Nat → Prop) (added : List Clause) : Prop where
  reached : e.Reached Accepts r.state (added.map ints)
  accepts : ∀ c ∈ added, ∀ x, c.Mentions x → Accepts x.toNat
  largest : Largest added r.maxVar

theorem serves_empty : (empty : Referee e).Serves Accepts [] where
  reached := .start
  accepts := by simp
  largest := ⟨by simp, Or.inr ⟨rfl, rfl⟩⟩

namespace Serves

variable {r : Referee e} {added : List Clause}

/-- One call. -/
theorem perform (h : r.Serves Accepts added) (call : Call)
    (hcall : ∀ c ∈ call.added, ∀ x, c.Mentions x → Accepts x.toNat) :
    (r.perform call).Serves Accepts (added ++ call.added) := by
  cases call with
  | solve =>
      rw [Call.added, List.append_nil]
      exact ⟨.solve h.reached, h.accepts, h.largest⟩
  | add c =>
      have haccepts := hcall c List.mem_cons_self
      refine ⟨?_, ?_, h.largest.snoc c⟩
      · rw [Call.added, List.map_append]
        refine .add h.reached ?_ ?_
        · rw [Lit.natAbs_toInt]
          exact haccepts _ (Or.inl rfl)
        · rw [Lit.natAbs_toInt]
          exact haccepts _ (Or.inr rfl)
      · rw [List.forall_mem_append]
        exact ⟨h.accepts, hcall⟩

/-- A run of calls. -/
theorem performAll (h : r.Serves Accepts added) (calls : List Call)
    (hcalls : ∀ c ∈ calls.flatMap Call.added, ∀ x, c.Mentions x → Accepts x.toNat) :
    (r.performAll calls).Serves Accepts (added ++ calls.flatMap Call.added) := by
  induction calls generalizing r added with
  | nil =>
      rw [List.flatMap_nil, List.append_nil]
      exact h
  | cons call calls ih =>
      rw [List.flatMap_cons, List.forall_mem_append] at hcalls
      have hnext := ih (h.perform call hcalls.1) hcalls.2
      rw [List.append_assoc] at hnext
      exact hnext

end Serves

/-! ## Decisions -/

theorem isTrueIn_congr {c : Clause} {v w : Valuation} (h : ∀ x, c.Mentions x → v x = w x) :
    c.isTrueIn v = c.isTrueIn w := by
  unfold Clause.isTrueIn Lit.isTrueIn
  rw [h _ (Or.inl rfl), h _ (Or.inr rfl)]

theorem pairTrueIn_ints {c : Clause} (hc : ∀ x, c.Mentions x → x ≠ 0) (v : Nat → Bool) :
    PairTrueIn v (ints c) ↔ c.isTrueIn (fun x => v x.toNat) = true := by
  rw [Clause.isTrueIn, Bool.or_eq_true, ← Lit.intTrueIn_toInt (hc _ (Or.inl rfl)),
    ← Lit.intTrueIn_toInt (hc _ (Or.inr rfl))]
  rfl

/-- The clauses mean the same to the engine. -/
theorem satisfiable_ints {clauses : List Clause}
    (hclauses : ∀ c ∈ clauses, ∀ x, c.Mentions x → x ≠ 0) :
    (∃ v, ∀ pair ∈ clauses.map ints, PairTrueIn v pair) ↔ Satisfiable clauses := by
  simp only [List.forall_mem_map]
  constructor
  · rintro ⟨v, hv⟩
    exact ⟨_, fun c hc => (pairTrueIn_ints (hclauses c hc) v).1 (hv c hc)⟩
  · rintro ⟨w, hw⟩
    refine ⟨fun n => w (UInt32.ofNat n), ?_⟩
    intro c hc
    rw [pairTrueIn_ints (hclauses c hc)]
    simp only [UInt32.ofNat_toNat]
    exact hw c hc

/-- A table with a place for each variable up to the largest one, behind one that is not used, which makes
clauses true. Its model passes the check of every formula of such clauses. -/
structure Solves (clauses : List Clause) (bits : Array Bool) : Prop where
  size : ∃ n, Largest clauses n ∧ bits.size = n.toNat + 1
  unused : bits[0]? = some false
  makesTrue : ∀ c ∈ clauses, c.isTrueIn (Valuation.ofTable bits) = true
  checks : ∀ f : Formula, (∀ c ∈ f.clauses, c ∈ clauses) → f.check (Model.ofBits bits) = true

variable {r : Referee e} {added : List Clause}

theorem Serves.ne_zero (he : e.Right Accepts) (h : r.Serves Accepts added) :
    ∀ c ∈ added, ∀ x, c.Mentions x → x ≠ 0 := by
  rintro c hc _ hx rfl
  exact he.ne_zero _ (h.accepts c hc 0 hx) rfl

/-- The table of a model of the clauses. -/
theorem Serves.solves_table (he : e.Right Accepts) (h : r.Serves Accepts added) {lits : List Int}
    {v : Nat → Bool} (hv : ∀ pair ∈ added.map ints, PairTrueIn v pair)
    (hlits : ∀ x ∈ lits, IntTrueIn v x)
    (hnamed : ∀ pair ∈ added.map ints,
      (∃ x ∈ lits, x.natAbs = pair.1.natAbs) ∧ ∃ x ∈ lits, x.natAbs = pair.2.natAbs) :
    Solves added (table r.maxVar lits) := by
  have hne := h.ne_zero he
  have hsize := size_table r.maxVar lits
  -- every variable of the clauses is named, and has its place
  have hvalue : ∀ c ∈ added, ∀ x, c.Mentions x →
      Valuation.ofTable (table r.maxVar lits) x = v x.toNat := by
    intro c hc x hx
    have hle : x.toNat ≤ r.maxVar.toNat := UInt32.le_iff_toNat_le.1 (h.largest.le c hc x hx)
    have hname : ∃ y ∈ lits, y.natAbs = x.toNat := by
      rcases hnamed (ints c) (List.mem_map_of_mem hc) with ⟨hleft, hright⟩
      rcases hx with rfl | rfl
      · rw [← Lit.natAbs_toInt]
        exact hleft
      · rw [← Lit.natAbs_toInt]
        exact hright
    rw [Valuation.ofTable, Array.getD_eq_getD_getElem?, getElem?_table hlits hle hname]
    rfl
  have htrue : ∀ c ∈ added, c.isTrueIn (Valuation.ofTable (table r.maxVar lits)) = true := by
    intro c hc
    rw [isTrueIn_congr (hvalue c hc), ← pairTrueIn_ints (hne c hc)]
    exact hv _ (List.mem_map_of_mem hc)
  refine ⟨⟨r.maxVar, h.largest, hsize⟩, getElem?_table_zero _ _, htrue, ?_⟩
  intro f hf
  apply Formula.check_ofBits
  · rw [hsize]
    exact r.maxVar.toNat_lt
  · intro c hc x hx
    refine ⟨hne c (hf c hc) x hx, ?_⟩
    rw [hsize]
    exact Nat.lt_succ_of_le (UInt32.le_iff_toNat_le.1 (h.largest.le c (hf c hc) x hx))
  · exact fun c hc => htrue c (hf c hc)

theorem Serves.solve (he : e.Right Accepts) (h : r.Serves Accepts added) :
    ∃ answer, r.solve.1 = .ok answer ∧ (answer = none ↔ ¬ Satisfiable added) ∧
      ∀ bits, answer = some bits → Solves added bits := by
  rcases he.decides _ _ h.reached with ⟨sat, hdecision, hsat⟩
  rw [satisfiable_ints (h.ne_zero he)] at hsat
  cases sat with
  | false =>
      refine ⟨none, ?_, ?_, ?_⟩
      · simp only [Referee.solve, hdecision]
      · simpa using hsat
      · rintro _ ⟨⟩
  | true =>
      rcases he.model _ _ h.reached hdecision with ⟨lits, hmodel, ⟨v, hv, hlits⟩, hnamed⟩
      refine ⟨some (table r.maxVar lits), ?_, ?_, ?_⟩
      · simp only [Referee.solve, hdecision, hmodel]
      · simpa using hsat
      · rintro _ ⟨⟩
        exact h.solves_table he hv hlits hnamed

/-! ## Whole formulas -/

theorem ofClauses_eq (e : Engine) (clauses : Array Clause) :
    ofClauses e clauses = empty.performAll (clauses.toList.map Call.add) := by
  rw [ofClauses, performAll, List.foldl_map, ← Array.foldl_toList]
  rfl

theorem isSatisfiable_eq (he : e.Right Accepts) {clauses : Array Clause}
    (hclauses : ∀ c ∈ clauses, ∀ x, c.Mentions x → Accepts x.toNat) :
    ∃ sat, isSatisfiable e clauses = .ok sat ∧ (sat = true ↔ Satisfiable clauses.toList) := by
  have hadded : (clauses.toList.map Call.add).flatMap Call.added = clauses.toList := by
    rw [List.flatMap_map]
    exact List.flatMap_singleton' _
  have hserves := (serves_empty (e := e)).performAll (clauses.toList.map Call.add) (by
    rw [hadded]
    exact fun c hc => hclauses c (Array.mem_def.2 hc))
  rw [hadded, List.nil_append, ← ofClauses_eq] at hserves
  rcases hserves.solve he with ⟨answer, hanswer, hnone, _⟩
  refine ⟨answer.isSome, ?_, ?_⟩
  · rw [isSatisfiable, hanswer]
    rfl
  · rw [Option.isSome_iff_ne_none, Ne, hnone, not_not]

end Referee

/-- With a right engine behind it, a referee that was given clauses and asked to decide in any order decides
the clauses added so far: there is no table exactly if they are unsatisfiable, and a table solves them. And
it agrees with a solver at any point of a run from any start, over fewer than `2147483648` variables. -/
theorem referee_agrees {e : Engine} {Accepts : Nat → Prop} (he : e.Right Accepts) :
    (∀ calls : List Referee.Call,
      (∀ c ∈ calls.flatMap Referee.Call.added, ∀ x, c.Mentions x → Accepts x.toNat) →
      ∃ answer, ((Referee.empty : Referee e).performAll calls).solve.1 = .ok answer ∧
        (answer = none ↔ ¬ Satisfiable (calls.flatMap Referee.Call.added)) ∧
        ∀ bits, answer = some bits → Referee.Solves (calls.flatMap Referee.Call.added) bits) ∧
    ∀ (start s : Solver) (given : List (Int32 × Int32)) (ops : List Solver.Operation),
      Solver.Starts start given → (start.performAll ops).2 = s →
      (varsOf (given ++ ops.flatMap Solver.Operation.accepted)).toFinset.card < 2147483648 →
      (∀ c ∈ s.formula.clauses, ∀ x, c.Mentions x → Accepts x.toNat) →
      ∃ sat, (s.perform .isSatisfiable).1 = .satisfiable sat ∧
        Referee.isSatisfiable e s.formula.clauses = .ok sat := by
  constructor
  · intro calls hcalls
    exact (Referee.serves_empty.performAll calls hcalls).solve he
  · intro start s given ops hstart hs hvars haccepts
    have hreflects := hstart.reflects_performAll hs
    have hsize : s.formula.numbering.size < UInt32.size := by
      rw [hreflects.formula]
      exact Solver.size_ofHalves_lt hreflects.ne_zero hvars
    have hbuilt := hreflects.built
    rcases hreflects.exists_answers hsize with ⟨a, _, hrep, hanswers⟩
    rcases Referee.isSatisfiable_eq he haccepts with ⟨sat, hreferee, hsat⟩
    have hagree : a.partition.conflict?.isNone = sat := by
      rw [Bool.eq_iff_iff, hsat, Option.isNone_iff_eq_none]
      exact Formula.conflict?_eq_none_iff hbuilt (hbuilt.coherent hsize) hrep
    exact ⟨sat, hagree ▸ hanswers.isSatisfiable, hreferee⟩

/-- The two clauses of `1`, `-3` and of `3` twice, between which a decision is asked for. No clause is about
the variable `2`. -/
theorem referee_agrees_interleaved :
    Propagation.engine.Right Propagation.IsVar ∧
    (∃ bits, ((Referee.empty : Referee Propagation.engine).performAll
        [.add ⟨⟨1, true⟩, ⟨3, false⟩⟩, .solve, .add ⟨⟨3, true⟩, ⟨3, true⟩⟩]).solve.1 = .ok (some bits) ∧
      Referee.Solves [⟨⟨1, true⟩, ⟨3, false⟩⟩, ⟨⟨3, true⟩, ⟨3, true⟩⟩] bits) ∧
    ∃ s sat, (Solver.performAll .empty [.insert 1 (-3), .isSatisfiable, .insert 3 3]).2 = s ∧
      s.formula.clauses = #[⟨⟨1, true⟩, ⟨3, false⟩⟩, ⟨⟨3, true⟩, ⟨3, true⟩⟩] ∧
      (s.perform .isSatisfiable).1 = .satisfiable sat ∧
      Referee.isSatisfiable Propagation.engine s.formula.clauses = .ok sat := by
  have hright := Propagation.right_engine
  have haccepts : ∀ c ∈ [Clause.mk ⟨1, true⟩ ⟨3, false⟩, Clause.mk ⟨3, true⟩ ⟨3, true⟩],
      ∀ x, c.Mentions x → Propagation.IsVar x.toNat := by
    intro c hc x hx
    simp only [List.mem_cons, List.not_mem_nil, or_false] at hc
    rcases hc with rfl | rfl
    · rcases hx with rfl | rfl
      · exact ⟨by decide, by decide⟩
      · exact ⟨by decide, by decide⟩
    · rcases hx with rfl | rfl
      · exact ⟨by decide, by decide⟩
      · exact ⟨by decide, by decide⟩
  refine ⟨hright, ?_, ?_⟩
  · rcases (referee_agrees hright).1
      [.add ⟨⟨1, true⟩, ⟨3, false⟩⟩, .solve, .add ⟨⟨3, true⟩, ⟨3, true⟩⟩] haccepts with
      ⟨answer, hanswer, hnone, hsolves⟩
    cases answer with
    | none =>
        refine absurd ⟨fun _ => true, ?_⟩ (hnone.1 rfl)
        decide
    | some bits =>
        exact ⟨bits, hanswer, hsolves bits rfl⟩
  · obtain ⟨s, hs⟩ : ∃ s,
        (Solver.performAll .empty [.insert 1 (-3), .isSatisfiable, .insert 3 3]).2 = s := ⟨_, rfl⟩
    have hclauses : s.formula.clauses = #[⟨⟨1, true⟩, ⟨3, false⟩⟩, ⟨⟨3, true⟩, ⟨3, true⟩⟩] := by
      rw [← hs]
      decide +kernel
    have haccepted : ∀ c ∈ s.formula.clauses, ∀ x, c.Mentions x → Propagation.IsVar x.toNat := by
      intro c hc
      rw [hclauses] at hc
      exact haccepts c (Array.mem_def.1 hc)
    rcases (referee_agrees hright).2 .empty s [] _ Solver.Starts.empty hs (by decide) haccepted with
      ⟨sat, hsat, hreferee⟩
    exact ⟨s, sat, hs, hclauses, hsat, hreferee⟩

end TwoCnf
