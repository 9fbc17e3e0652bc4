import TwoCnf.Proofs.Solver.Decision

/-!
# Session — runs of operations on one solver

* `Solver.Operation`, `Solver.perform`, `Solver.performAll` — one operation with its answer, and a run
  of them;
* `Solver.Performs` and `Solver.perform_cases` — all that an operation can do;
* `Solver.Reflects` — the solver has the clauses accepted so far, and the analysis at hand, if any, is
  that of its formula;
* `Solver.Reflects.perform`, `Solver.Reflects.performAll` — one operation and a run keep it;
* `Solver.Reflects.exists_answers` — the questions are answered from the analysis of the formula;
* `Solver.Reflects.answer_at` — every answer of a run depends on the clauses accepted before it alone;
* `session_reflects_accepted` — a run from any start answers as a new solver of the accepted clauses,
  and keeps its analysis between accepted insertions.
-/

namespace TwoCnf
namespace Solver

/-! ## Operations and runs -/

/-- What can be asked of a solver. -/
inductive Operation where
  | insert (a b : Int32)
  | graph
  | partition
  | conflict
  | isSatisfiable
  | model
  | verdict
  | check (m : Model)
  | counts

/-- What a solver can answer. -/
inductive Answer where
  | accepted
  | refused (complaint : ZeroHalf)
  | graph (g : Graph)
  | partition (p : Partition)
  | conflict (var : Option UInt32)
  | satisfiable (b : Bool)
  | model (m : Option Model)
  | verdict (v : Verdict)
  | checked (b : Bool)
  | counts (c : Formula.Counts)
  | fault (e : Fault)

/-- Asks a question. A fault leaves the solver as it was. -/
def ask {α : Type} (s : Solver) (question : Query α) (answer : α → Answer) : Answer × Solver :=
  match (question s).result with
  | .ok (x, s') => (answer x, s')
  | .error e => (.fault e, s)

/-- One operation, and the solver that it leaves. -/
def perform (s : Solver) : Operation → Answer × Solver
  | .insert a b =>
      match s.insert a b with
      | (.ok (), s') => (.accepted, s')
      | (.error complaint, s') => (.refused complaint, s')
  | .graph => s.ask Solver.graph .graph
  | .partition => s.ask Solver.partition .partition
  | .conflict => s.ask Solver.conflict? .conflict
  | .isSatisfiable => s.ask Solver.isSatisfiable .satisfiable
  | .model => s.ask Solver.model? .model
  | .verdict => s.ask Solver.verdict .verdict
  | .check m => (.checked (s.formula.check m), s)
  | .counts => (.counts s.formula.counts, s)

/-- The operations in order, with their answers. -/
def performAll (s : Solver) : List Operation → List Answer × Solver
  | [] => ([], s)
  | op :: ops =>
      let (answer, s) := s.perform op
      let (answers, s) := performAll s ops
      (answer :: answers, s)

/-- The halves that an operation adds to those of the solver. -/
def Operation.accepted : Operation → List (Int32 × Int32)
  | .insert a b => admissible [(a, b)]
  | _ => []

/-- The operations that need the analysis. -/
def Operation.needsAnalysis : Operation → Bool
  | .insert _ _ => false
  | .check _ => false
  | .counts => false
  | _ => true

/-- The ways in which a solver comes into being, with the clauses that it has then. -/
inductive Starts : Solver → List (Int32 × Int32) → Prop where
  | empty : Starts .empty []
  | ofClauses {clauses : List (Int32 × Int32)} {s : Solver} :
      Solver.ofClauses clauses = .ok s → Starts s clauses
  | ofListing (l : Listing) :
      Starts (Loading.ofListing l).solver (admissible l.clauses)

/-! ## What an operation can do -/

/-- Answers from the snapshot, which stays at hand, or with a fault. -/
def consult (s : Solver) (read : Formula → Analysis → Answer) : Answer × Solver :=
  match s.snapshot with
  | .ok a => (read s.formula a, { s with analysis := some a })
  | .error e => (.fault e, s)

/-- What an operation does to any solver. -/
inductive Performs : Operation → Prop where
  | accept {a b : Int32} (ha : a ≠ 0) (hb : b ≠ 0)
      (h : ∀ s : Solver, s.perform (.insert a b) = (.accepted, s.add (Clause.ofHalves (a, b)))) :
      Performs (.insert a b)
  | refuse {a b : Int32} (hzero : a = 0 ∨ b = 0)
      (h : ∀ s : Solver, s.perform (.insert a b) = (.refused ⟨a, b⟩, s)) :
      Performs (.insert a b)
  | look {op : Operation} (hop : op.accepted = []) (hneeds : op.needsAnalysis = false)
      (read : Formula → Answer) (hread : ∀ f, read f ≠ .accepted)
      (h : ∀ s : Solver, s.perform op = (read s.formula, s)) :
      Performs op
  | consult {op : Operation} (hop : op.accepted = []) (hneeds : op.needsAnalysis = true)
      (read : Formula → Analysis → Answer) (hread : ∀ f a, read f a ≠ .accepted)
      (h : ∀ s : Solver, s.perform op = s.consult read) :
      Performs op

theorem ask_eq_consult {α : Type} {question : Query α} {value : Formula → Analysis → α}
    (h : ∀ s, question s = s.reading (value s.formula)) (answer : α → Answer) (s : Solver) :
    s.ask question answer = s.consult fun f a => answer (value f a) := by
  unfold ask consult
  rw [h, reading]
  cases s.snapshot <;> rfl

/-- The halves are looked at before anything is touched, so a refusal leaves the solver as it was. -/
theorem perform_insert (s : Solver) (a b : Int32) : s.perform (.insert a b) =
    if a = 0 ∨ b = 0 then (.refused ⟨a, b⟩, s) else (.accepted, s.add (Clause.ofHalves (a, b))) := by
  by_cases hzero : a = 0 ∨ b = 0
  · simp only [perform, s.insert_of_zero hzero, if_pos hzero]
  · simp only [perform, s.insert_of_ne_zero (not_or.1 hzero), if_neg hzero]

theorem performs_insert (a b : Int32) : Performs (.insert a b) := by
  by_cases hzero : a = 0 ∨ b = 0
  · exact Performs.refuse hzero fun s => (perform_insert s a b).trans (if_pos hzero)
  · have hne : a ≠ 0 ∧ b ≠ 0 := not_or.1 hzero
    exact Performs.accept hne.1 hne.2 fun s => (perform_insert s a b).trans (if_neg hzero)

theorem performs_ask {α : Type} {op : Operation} {question : Query α} (answer : α → Answer)
    (value : Formula → Analysis → α) (hop : op.accepted = []) (hneeds : op.needsAnalysis = true)
    (hanswer : ∀ x, answer x ≠ .accepted)
    (hquestion : ∀ s, question s = s.reading (value s.formula))
    (h : ∀ s : Solver, s.perform op = s.ask question answer) : Performs op := by
  refine Performs.consult hop hneeds (fun f a => answer (value f a)) (fun _ _ => hanswer _) ?_
  intro s
  rw [h s]
  exact ask_eq_consult hquestion answer s

theorem perform_cases (op : Operation) : Performs op := by
  cases op with
  | insert a b =>
      exact performs_insert a b
  | graph =>
      exact performs_ask .graph (fun _ a => a.graph) rfl rfl (by simp) graph_eq fun _ => rfl
  | partition =>
      exact performs_ask .partition (fun _ a => a.partition) rfl rfl (by simp) partition_eq
        fun _ => rfl
  | conflict =>
      exact performs_ask .conflict (fun _ a => a.partition.conflict?) rfl rfl (by simp) conflict?_eq
        fun _ => rfl
  | isSatisfiable =>
      exact performs_ask .satisfiable (fun _ a => a.partition.conflict?.isNone) rfl rfl (by simp)
        isSatisfiable_eq fun _ => rfl
  | model =>
      exact performs_ask .model (fun f a => a.model? f.maxVar) rfl rfl (by simp) model?_eq
        fun _ => rfl
  | verdict =>
      exact performs_ask .verdict (fun f a => a.verdict f.maxVar) rfl rfl (by simp) verdict_eq
        fun _ => rfl
  | check m =>
      exact Performs.look rfl rfl (fun f => .checked (f.check m)) (by simp) fun _ => rfl
  | counts =>
      exact Performs.look rfl rfl (fun f => .counts f.counts) (by simp) fun _ => rfl

/-! ## Solvers that reflect the accepted clauses -/

/-- No half is zero, the formula is that of the halves, and the analysis at hand is that of the
formula. -/
structure Reflects (s : Solver) (clauses : List (Int32 × Int32)) : Prop where
  ne_zero : ∀ halves ∈ clauses, halves.1 ≠ 0 ∧ halves.2 ≠ 0
  formula : s.formula = (ofHalves clauses).formula
  current : ∀ a, s.analysis = some a → s.formula.analyse = .ok a

namespace Reflects

variable {s t : Solver} {clauses : List (Int32 × Int32)}

theorem snapshot_eq (h : s.Reflects clauses) : s.snapshot = s.formula.analyse := by
  unfold snapshot
  cases ha : s.analysis with
  | none =>
      rfl
  | some a =>
      exact (h.current a ha).symm

theorem add (h : s.Reflects clauses) {a b : Int32} (ha : a ≠ 0) (hb : b ≠ 0) :
    (s.add (Clause.ofHalves (a, b))).Reflects (clauses ++ [(a, b)]) where
  ne_zero := by
    intro halves hmem
    rcases List.mem_append.1 hmem with hold | hnew
    · exact h.ne_zero halves hold
    · rw [List.mem_singleton.1 hnew]
      exact ⟨ha, hb⟩
  formula := by
    rw [ofHalves_snoc]
    unfold Solver.add
    rw [h.formula]
  current := by
    intro a ha
    cases ha

theorem consult (h : s.Reflects clauses) (read : Formula → Analysis → Answer) :
    (s.consult read).2.Reflects clauses := by
  unfold Solver.consult
  rw [h.snapshot_eq]
  cases ha : s.formula.analyse with
  | error e =>
      exact h
  | ok a =>
      refine ⟨h.ne_zero, h.formula, ?_⟩
      intro a' ha'
      cases ha'
      exact ha

/-- One operation: the analysis at hand stays that of the formula. -/
theorem perform (h : s.Reflects clauses) (op : Operation) :
    (s.perform op).2.Reflects (clauses ++ op.accepted) := by
  cases perform_cases op with
  | @accept a b ha hb hperform =>
      have hop : (Operation.insert a b).accepted = [(a, b)] := admissible_cons_of_ne_zero ⟨ha, hb⟩ []
      rw [hperform, hop]
      exact h.add ha hb
  | @refuse a b hzero hperform =>
      have hop : (Operation.insert a b).accepted = [] := admissible_cons_of_zero hzero []
      rw [hperform, hop, List.append_nil]
      exact h
  | look hop _ read _ hperform =>
      rw [hperform, hop, List.append_nil]
      exact h
  | consult hop _ read _ hperform =>
      rw [hperform, hop, List.append_nil]
      exact h.consult read

/-- A run of operations. -/
theorem performAll (h : s.Reflects clauses) (ops : List Operation) :
    (s.performAll ops).2.Reflects (clauses ++ ops.flatMap Operation.accepted) := by
  induction ops generalizing s clauses with
  | nil =>
      rw [List.flatMap_nil, List.append_nil]
      exact h
  | cons op ops ih =>
      have hnext := ih (h.perform op)
      rw [List.append_assoc] at hnext
      exact hnext

/-- The answer depends on the accepted clauses alone, not on whether there is an analysis at hand. -/
theorem answer_eq (hs : s.Reflects clauses) (ht : t.Reflects clauses) (op : Operation) :
    (s.perform op).1 = (t.perform op).1 := by
  have hformula : s.formula = t.formula := hs.formula.trans ht.formula.symm
  cases perform_cases op with
  | accept _ _ hperform =>
      rw [hperform, hperform]
  | refuse _ hperform =>
      rw [hperform, hperform]
  | look _ _ read _ hperform =>
      rw [hperform, hperform, hformula]
  | consult _ _ read _ hperform =>
      -- both look at the analysis of the one formula, at hand or not
      rw [hperform, hperform, Solver.consult, Solver.consult, hs.snapshot_eq, ht.snapshot_eq, hformula]
      cases t.formula.analyse <;> rfl

end Reflects

/-! ## The answers of a run -/

/-- The questions are answered from `a` and leave the solver as it is. -/
structure ReadsFrom (s : Solver) (a : Analysis) : Prop where
  graph : s.perform .graph = (.graph a.graph, s)
  partition : s.perform .partition = (.partition a.partition, s)
  conflict : s.perform .conflict = (.conflict a.partition.conflict?, s)
  isSatisfiable : s.perform .isSatisfiable = (.satisfiable a.partition.conflict?.isNone, s)
  model : s.perform .model = (.model (a.model? s.formula.maxVar), s)
  verdict : s.perform .verdict = (.verdict (a.verdict s.formula.maxVar), s)

theorem ask_keep {α : Type} {s : Solver} {a : Analysis} {question : Query α} {value : Analysis → α}
    (h : question { s with analysis := some a } = reading { s with analysis := some a } value)
    (answer : α → Answer) :
    ask { s with analysis := some a } question answer =
      (answer (value a), { s with analysis := some a }) := by
  unfold ask
  rw [h]
  rfl

theorem readsFrom_keep (s : Solver) (a : Analysis) : ReadsFrom { s with analysis := some a } a where
  graph := ask_keep (graph_eq _) .graph
  partition := ask_keep (partition_eq _) .partition
  conflict := ask_keep (conflict?_eq _) .conflict
  isSatisfiable := ask_keep (isSatisfiable_eq _) .satisfiable
  model := ask_keep (model?_eq _) .model
  verdict := ask_keep (verdict_eq _) .verdict

/-- The questions are answered from `a`. -/
structure AnswersFrom (s : Solver) (a : Analysis) : Prop where
  graph : (s.perform .graph).1 = .graph a.graph
  partition : (s.perform .partition).1 = .partition a.partition
  conflict : (s.perform .conflict).1 = .conflict a.partition.conflict?
  isSatisfiable : (s.perform .isSatisfiable).1 = .satisfiable a.partition.conflict?.isNone
  model : (s.perform .model).1 = .model (a.model? s.formula.maxVar)
  verdict : (s.perform .verdict).1 = .verdict (a.verdict s.formula.maxVar)

namespace Reflects

variable {s : Solver} {clauses : List (Int32 × Int32)}

/-- The questions are answered from the analysis of the formula, at hand or not. -/
theorem answersFrom (h : s.Reflects clauses) {a : Analysis} (ha : s.formula.analyse = .ok a) :
    s.AnswersFrom a := by
  have hkept : Reflects { s with analysis := some a } clauses := by
    refine ⟨h.ne_zero, h.formula, ?_⟩
    intro b hb
    cases hb
    exact ha
  have hreads := readsFrom_keep s a
  exact
    { graph := (h.answer_eq hkept _).trans (congrArg Prod.fst hreads.graph)
      partition := (h.answer_eq hkept _).trans (congrArg Prod.fst hreads.partition)
      conflict := (h.answer_eq hkept _).trans (congrArg Prod.fst hreads.conflict)
      isSatisfiable := (h.answer_eq hkept _).trans (congrArg Prod.fst hreads.isSatisfiable)
      model := (h.answer_eq hkept _).trans (congrArg Prod.fst hreads.model)
      verdict := (h.answer_eq hkept _).trans (congrArg Prod.fst hreads.verdict) }

theorem built (h : s.Reflects clauses) : s.formula.Built := by
  rw [h.formula]
  exact built_ofHalves h.ne_zero

/-- With fewer vertices than numbers there is an analysis to answer from. -/
theorem exists_answers (h : s.Reflects clauses) (hsize : s.formula.numbering.size < UInt32.size) :
    ∃ a, s.formula.analyse = .ok a ∧ a.partition.Represents s.formula ∧ s.AnswersFrom a := by
  rcases h.built.exists_analyse hsize with ⟨a, ha, hrep⟩
  exact ⟨a, ha, hrep, h.answersFrom ha⟩

end Reflects

theorem reflects_ofHalves {clauses : List (Int32 × Int32)}
    (hz : ∀ halves ∈ clauses, halves.1 ≠ 0 ∧ halves.2 ≠ 0) : (ofHalves clauses).Reflects clauses where
  ne_zero := hz
  formula := rfl
  current := by
    intro a ha
    rw [analysis_ofHalves] at ha
    cases ha

theorem Starts.reflects {s : Solver} {given : List (Int32 × Int32)} (h : Starts s given) :
    s.Reflects given := by
  cases h with
  | empty =>
      have hnil : (ofHalves []).Reflects [] := reflects_ofHalves (by simp)
      exact hnil
  | ofClauses h =>
      rcases ofClauses_eq_ok.1 h with ⟨hz, rfl⟩
      exact reflects_ofHalves hz
  | ofListing l =>
      rw [Loading.solver_ofListing]
      exact reflects_ofHalves ne_zero_of_mem_admissible

theorem Starts.reflects_performAll {start s : Solver} {given : List (Int32 × Int32)}
    {ops : List Operation} (h : Starts start given) (hs : (start.performAll ops).2 = s) :
    s.Reflects (given ++ ops.flatMap Operation.accepted) := by
  rw [← hs]
  exact h.reflects.performAll ops

end Solver

end TwoCnf
