import TwoCnf.Proofs.Command.Transcript
import TwoCnf.Proofs.Reference.Referee
import TwoCnf.Proofs.Solver.Decision
import TwoCnf.Proofs.Solver.Tokens

/-!
# Solving — what deciding a file prints

* `Action.conclude` — what is done with a listing once it is loaded, and `Action.leaves_conclude` — what
  that prints and logs. The search is made for the first question, whichever it is;
* `Command.run_solve` — the run on a file that can be read;
* `Satisfies`, `Tells` — what tokens and the last lines of the output say of clauses, and
  `tells_verdictLines` — that it is so;
* `solve_tells` — so every run on a file that can be read succeeds, and its switches only add lines.
-/

namespace TwoCnf
namespace Action

variable {m : Type → Type} [Monad m] [LawfulMonad m]

/-! ## The parts of a run -/

/-- What loading a listing logs. -/
def loaded (listing : Listing) : List Event :=
  ((Loading.ofListing listing).remarks listing).map Event.remark ++
    [.loaded (Loading.ofListing listing).solver.formula.clauses.size
      (Loading.ofListing listing).skipped.size]

theorem leaves_loadSolver (listing : Listing) :
    Leaves (loadSolver listing : Action m Solver) (Loading.ofListing listing).solver []
      (loaded listing) :=
  (leaves_forM_log Event.remark _).bind ((leaves_log _).bind (leaves_pure _))

/-- The line of an implication. -/
def edgeLine (edge : Lit × Lit) : String :=
  "c edge " ++ edge.1.text ++ " -> " ++ edge.2.text

/-- The lines of the components. -/
def componentLines (p : Partition) : List String :=
  p.components.toList.zipIdx.map fun entry => componentLine entry.2 entry.1

theorem leaves_dumpGraph {s : Solver} {a : Analysis} {edges : List (Lit × Lit)}
    (hs : s.snapshot = .ok a) (hedges : a.graph.edges = .ok edges) :
    Leaves (dumpGraph s : Action m Solver) { s with analysis := some a } (edges.map edgeLine)
      (asked s) := by
  refine Leaves.congr ((leaves_ask s.graph_eq hs).bind ((leaves_obtain hedges).bind
    ((leaves_forM_say edgeLine edges).bind (leaves_pure _)))) ?_ ?_
  · simp
  · simp

theorem leaves_dumpComponents {s : Solver} {a : Analysis} (hs : s.snapshot = .ok a) :
    Leaves (dumpComponents s : Action m Solver) { s with analysis := some a }
      (componentLines a.partition) (asked s) := by
  have hsay : Leaves (m := m) (a.partition.components.toList.zipIdx.forM fun entry =>
      say (componentLine entry.2 entry.1)) () (componentLines a.partition) [] :=
    leaves_forM_say (fun entry : List Lit × Nat => componentLine entry.2 entry.1) _
  refine Leaves.congr ((leaves_ask s.partition_eq hs).bind (hsay.bind (leaves_pure _))) ?_ ?_
  · simp
  · simp

theorem leaves_crossCheck {e : Engine} {s : Solver} {verdict : Verdict}
    (h : Referee.isSatisfiable e s.formula.clauses = .ok verdict.isSatisfiable) :
    Leaves (crossCheck e s verdict : Action m Unit) () [] [.crossChecked] := by
  unfold crossCheck
  rw [h]
  simp only [if_true]
  exact leaves_log _

/-- The lines of a verdict. -/
def verdictLines : Verdict → List String
  | .satisfiable model => ["SATISFIABLE", model.line model.numVars]
  | .contradiction _ => ["UNSATISFIABLE"]

/-- What announcing a verdict logs. -/
def announced (listing : Listing) : Verdict → List Event
  | .satisfiable model =>
      match listing.declaredVars with
      | some declared =>
          if model.numVars < declared then [.freeVariables declared model.numVars] else []
      | none => []
  | .contradiction var => [.contradiction var]

theorem leaves_announce (listing : Listing) (verdict : Verdict) :
    Leaves (announce listing verdict : Action m Unit) () (verdictLines verdict)
      (announced listing verdict) := by
  cases verdict with
  | contradiction var =>
      exact (leaves_log _).bind (leaves_say _)
  | satisfiable model =>
      unfold announce announced
      refine (leaves_say _).bind ?_
      cases listing.declaredVars with
      | none =>
          exact leaves_say _
      | some declared =>
          by_cases hfree : model.numVars < declared
          · simp only [if_pos hfree]
            exact (leaves_log _).bind (leaves_say _)
          · simp only [if_neg hfree]
            exact leaves_say _

/-! ## A whole run -/

/-- What is done with a listing once it is loaded. -/
def conclude (e : Engine) (listing : Listing) (options : SolveOptions) (s : Solver) : Action m Unit :=
  (if options.dumpGraph then dumpGraph s else pure s) >>= fun s =>
    (if options.dumpComponents then dumpComponents s else pure s) >>= fun s =>
      ask Solver.verdict s >>= fun (verdict, s) =>
        if options.crossCheck then crossCheck e s verdict >>= fun _ => announce listing verdict
        else announce listing verdict

omit [LawfulMonad m] in
theorem solve_eq (files : Files m) (e : Engine) (path : String) (options : SolveOptions) :
    solve files e path options = readListing files path >>= fun listing =>
      loadSolver listing >>= conclude e listing options := by
  rcases options with ⟨_, dumpGraph, dumpComponents⟩
  cases dumpGraph <;> cases dumpComponents <;> rfl

/-- The action prints the lines and goes on with the same formula. Whether it had to search or found the
analysis at hand or left it alone, the searches that it logs are not made again. -/
def LooksAt (x : Action m Solver) (s : Solver) (a : Analysis) (lines : List String) : Prop :=
  ∃ s' events, Leaves x s' lines events ∧ s'.formula = s.formula ∧ s'.snapshot = .ok a ∧
    events ++ asked s' = asked s

omit [LawfulMonad m] in
theorem Leaves.looksAt {x : Action m Solver} {s : Solver} {a : Analysis} {lines : List String}
    (h : Leaves x { s with analysis := some a } lines (asked s)) : LooksAt x s a lines :=
  ⟨_, _, h, rfl, rfl, List.append_nil _⟩

omit [LawfulMonad m] in
/-- What is not asked for prints nothing. -/
theorem LooksAt.optional {x : Action m Solver} {s : Solver} {a : Analysis} {lines : List String}
    (h : LooksAt x s a lines) (hs : s.snapshot = .ok a) (wanted : Bool) :
    LooksAt (if wanted then x else pure s) s a (if wanted then lines else []) := by
  cases wanted with
  | true =>
      exact h
  | false =>
      exact ⟨s, [], leaves_pure s, rfl, hs, rfl⟩

/-- What the dumps print. -/
def dumpLines (options : SolveOptions) (a : Analysis) (edges : List (Lit × Lit)) : List String :=
  (if options.dumpGraph then edges.map edgeLine else []) ++
    if options.dumpComponents then componentLines a.partition else []

theorem leaves_conclude {e : Engine} {s : Solver} {a : Analysis} {edges : List (Lit × Lit)}
    (listing : Listing) (options : SolveOptions) (hs : s.snapshot = .ok a)
    (hedges : a.graph.edges = .ok edges)
    (hagree : Referee.isSatisfiable e s.formula.clauses =
      .ok (a.verdict s.formula.maxVar).isSatisfiable) :
    Leaves (conclude e listing options s : Action m Unit) ()
      (dumpLines options a edges ++ verdictLines (a.verdict s.formula.maxVar))
      (asked s ++ ((if options.crossCheck then [.crossChecked] else []) ++
        announced listing (a.verdict s.formula.maxVar))) := by
  rcases (leaves_dumpGraph (m := m) hs hedges).looksAt.optional hs options.dumpGraph with
    ⟨s₁, events₁, hfirst, hformula₁, hs₁, hevents₁⟩
  rcases (leaves_dumpComponents (m := m) hs₁).looksAt.optional hs₁ options.dumpComponents with
    ⟨s₂, events₂, hsecond, hformula₂, hs₂, hevents₂⟩
  -- the verdict is asked of the same formula, whatever was looked at before
  have hformula : s₂.formula = s.formula := hformula₂.trans hformula₁
  have hverdict := leaves_ask (m := m) s₂.verdict_eq hs₂
  rw [hformula] at hverdict
  have hend : Leaves (m := m) (if options.crossCheck then
        crossCheck e ⟨s.formula, some a⟩ (a.verdict s.formula.maxVar) >>= fun _ =>
          announce listing (a.verdict s.formula.maxVar)
      else announce listing (a.verdict s.formula.maxVar)) ()
      (verdictLines (a.verdict s.formula.maxVar))
      ((if options.crossCheck then [.crossChecked] else []) ++
        announced listing (a.verdict s.formula.maxVar)) := by
    cases options.crossCheck with
    | true =>
        exact (leaves_crossCheck hagree).bind (leaves_announce _ _)
    | false =>
        exact leaves_announce _ _
  refine Leaves.congr (hfirst.bind (hsecond.bind (hverdict.bind hend))) ?_ ?_
  · simp [dumpLines]
  -- of the three questions only the first leaves an event
  · rw [← hevents₁, ← hevents₂]
    simp

end Action

/-- What a run leaves of the outcome of its action. -/
def Report.ofOutcome : Except Failure Unit × Transcript → Report
  | (.ok (), transcript) => ⟨transcript, none⟩
  | (.error failure, transcript) => ⟨transcript, some failure⟩

theorem Command.run_eq {m : Type → Type} [Monad m] (files : Files m) (e : Engine) (c : Command) :
    Command.run files e c =
      (c.action files e).run.run ⟨#[], #[]⟩ >>= fun outcome => pure (Report.ofOutcome outcome) := by
  unfold Command.run
  congr 1
  funext outcome
  rcases outcome with ⟨_ | _, transcript⟩ <;> rfl

theorem run_bind_of_run {World α β : Type} {x : StateM World α} {before after : World} {a : α}
    (h : x.run before = (a, after)) (f : α → StateM World β) :
    (x >>= f).run before = (f a).run after := by
  rw [StateT.run_bind, h]
  rfl

/-- A run on a file that can be read leaves what its action leaves, and the world as reading left it. -/
theorem Command.run_solve {World : Type} {files : Files (StateM World)} {before after : World}
    {e : Engine} {path : String} {bytes : ByteArray} {listing : Listing} {options : SolveOptions}
    {lines : List String} {events : List Event}
    (hread : (files.read path).run before = (.ok bytes, after))
    (hparse : Listing.parseBytes bytes = .ok listing)
    (h : Action.Leaves (Action.loadSolver listing >>= Action.conclude e listing options :
      Action (StateM World) Unit) () lines events) :
    (Command.run files e (.solve path options)).run before =
      (⟨⟨lines.toArray, events.toArray⟩, none⟩, after) := by
  have hlisting : Action.listingOf path (.ok bytes) = .ok listing := by
    rw [Action.listingOf, hparse]
  have hempty : (⟨#[], #[]⟩ : Transcript).extend lines events = ⟨lines.toArray, events.toArray⟩ := by
    simp [Transcript.extend]
  -- the file is read once, before anything is printed, and the rest asks nothing of the files
  rw [Command.run_eq, Command.action, Action.solve_eq, Action.run_bind, Action.run_readListing,
    bind_assoc, bind_assoc, run_bind_of_run hread]
  simp only [pure_bind, hlisting, h ⟨#[], #[]⟩, hempty]
  rfl

/-! ## What the last lines say -/

/-- Tokens of `1` and `0`, one for each variable from `1` to the largest of the clauses, that make all
clauses true. Without clauses there are no tokens. -/
structure Satisfies (tokens : List String) (clauses : List (Int32 × Int32)) : Prop where
  binary : ∀ token ∈ tokens, token = "1" ∨ token = "0"
  covers : ∀ x ∈ varsOf clauses, x.toNat ≤ tokens.length
  ends : clauses ≠ [] → ∃ x ∈ varsOf clauses, x.toNat = tokens.length
  empty : clauses = [] → tokens = []
  makesTrue : ∀ halves ∈ clauses, HalfTrueIn halves (valuationOf tokens)

/-- The lines say whether the clauses are satisfiable and, if so, by which values. -/
structure Tells (lines : List String) (clauses : List (Int32 × Int32)) : Prop where
  unsatisfiable : (¬ ∃ v : Valuation, ∀ halves ∈ clauses, HalfTrueIn halves v) →
    lines = ["UNSATISFIABLE"]
  satisfiable : (∃ v : Valuation, ∀ halves ∈ clauses, HalfTrueIn halves v) →
    ∃ tokens : List String, lines = ["SATISFIABLE", " ".intercalate tokens] ∧
      Satisfies tokens clauses

theorem Analysis.isSatisfiable_verdict (a : Analysis) (n : UInt32) :
    (a.verdict n).isSatisfiable = a.partition.conflict?.isNone := by
  unfold Analysis.verdict
  cases a.partition.conflict? <;> rfl

section Verdict

variable {clauses : List (Int32 × Int32)} {a : Analysis}

/-- A referee with a right engine agrees with the verdict. -/
theorem agrees_verdict {e : Engine} {Accepts : Nat → Prop} (he : e.Right Accepts)
    (haccepts : ∀ x ∈ varsOf clauses, Accepts x.toNat)
    (hz : ∀ halves ∈ clauses, halves.1 ≠ 0 ∧ halves.2 ≠ 0)
    (hvars : (varsOf clauses).toFinset.card < 2147483648)
    (hrep : a.partition.Represents (Solver.ofHalves clauses).formula) (n : UInt32) :
    Referee.isSatisfiable e (Solver.ofHalves clauses).formula.clauses =
      .ok (a.verdict n).isSatisfiable := by
  have hbuilt := Solver.built_ofHalves hz
  have hcoherent := hbuilt.coherent (Solver.size_ofHalves_lt hz hvars)
  have hmentioned : ∀ c ∈ (Solver.ofHalves clauses).formula.clauses, ∀ x, c.Mentions x →
      Accepts x.toNat := by
    intro c hc x hx
    exact haccepts x ((Solver.exists_mentions_iff clauses x).1 ⟨c, hc, hx⟩)
  rcases Referee.isSatisfiable_eq he hmentioned with ⟨sat, hreferee, hsat⟩
  have hagree : (a.verdict n).isSatisfiable = sat := by
    rw [Analysis.isSatisfiable_verdict, Bool.eq_iff_iff, hsat, Option.isNone_iff_eq_none]
    exact Formula.conflict?_eq_none_iff hbuilt hcoherent hrep
  rw [hagree]
  exact hreferee

/-- The tokens of a model that passes the check. -/
theorem satisfies_tokens (hz : ∀ halves ∈ clauses, halves.1 ≠ 0 ∧ halves.2 ≠ 0) {model : Model}
    (hnum : model.numVars = (Solver.ofHalves clauses).formula.maxVar)
    (hcheck : (Solver.ofHalves clauses).formula.check model = true) :
    Satisfies model.tokens clauses := by
  have hlength : model.tokens.length = (Solver.ofHalves clauses).formula.maxVar.toNat := by
    rw [Model.length_tokens, hnum]
  rcases Solver.maxVar_ofHalves hz with ⟨hlargest, hused⟩
  refine ⟨model.mem_tokens, ?_, ?_, ?_, ?_⟩
  · intro x hx
    rw [hlength]
    exact UInt32.le_iff_toNat_le.1 (hlargest x hx)
  · intro hne
    rw [hlength]
    exact ⟨_, hused.resolve_right fun hnil => hne hnil.1, rfl⟩
  · rintro rfl
    exact List.length_eq_zero_iff.1 hlength
  · intro halves hhalves
    have hmem : Clause.ofHalves halves ∈ (Solver.ofHalves clauses).formula.clauses := by
      rw [Array.mem_def, Solver.clauses_ofHalves]
      exact List.mem_map_of_mem hhalves
    have hholds := Array.all_eq_true_iff_forall_mem.1 hcheck _ hmem
    exact (Clause.isTrueIn_ofHalves halves _).1 (Clause.isTrueIn_tokens hholds)

theorem tells_verdictLines (hz : ∀ halves ∈ clauses, halves.1 ≠ 0 ∧ halves.2 ≠ 0)
    (hvars : (varsOf clauses).toFinset.card < 2147483648)
    (hrep : a.partition.Represents (Solver.ofHalves clauses).formula) :
    Tells (Action.verdictLines (a.verdict (Solver.ofHalves clauses).formula.maxVar)) clauses := by
  have hbuilt := Solver.built_ofHalves hz
  have hcoherent := hbuilt.coherent (Solver.size_ofHalves_lt hz hvars)
  have hdecides := Formula.conflict?_eq_none_iff hbuilt hcoherent hrep
  rw [Solver.satisfiable_ofHalves] at hdecides
  constructor
  · intro hunsat
    cases hconflict : a.partition.conflict? with
    | none =>
        exact absurd (hdecides.1 hconflict) hunsat
    | some x =>
        rw [Analysis.verdict, hconflict]
        rfl
  · intro hsat
    have hnone := hdecides.2 hsat
    have hcheck := Formula.check_resolve hbuilt hcoherent hrep
      (hrep.tidy.conflict?_eq_none_iff.1 hnone)
    refine ⟨_, ?_, satisfies_tokens hz rfl hcheck⟩
    rw [Analysis.verdict, hnone]
    rfl

end Verdict

/-! ## Every run -/

/-- Whether an event is that of a search. -/
def Event.isSearch : Event → Bool
  | .searched _ => true
  | _ => false

theorem filter_loaded (listing : Listing) :
    (Action.loaded listing).filter Event.isSearch = [] := by
  simp [Action.loaded, Event.isSearch]

theorem filter_announced (listing : Listing) (verdict : Verdict) :
    (Action.announced listing verdict).filter Event.isSearch = [] := by
  cases verdict with
  | contradiction var =>
      rfl
  | satisfiable model =>
      unfold Action.announced
      cases listing.declaredVars with
      | none =>
          rfl
      | some declared =>
          by_cases hfree : model.numVars < declared
          · simp [hfree, Event.isSearch]
          · simp [hfree]

/-- Every run on a file that can be read, whose clauses without a zero half are over fewer than `2147483648`
variables, succeeds and searches once, whatever the files are and with any right engine that accepts these
variables. It prints the dumps that are asked for and then a verdict on these clauses, which is the same for
all switches. -/
theorem solve_tells {World : Type} (files : Files (StateM World)) {e : Engine} {Accepts : Nat → Prop}
    (he : e.Right Accepts) (before after : World) (path : String) (bytes : ByteArray)
    (listing : Listing) (hread : (files.read path).run before = (.ok bytes, after))
    (hparse : Listing.parseBytes bytes = .ok listing)
    (hvars : (varsOf (admissible listing.clauses)).toFinset.card < 2147483648)
    (haccepts : ∀ x ∈ varsOf (admissible listing.clauses), Accepts x.toNat) :
    ∃ analysis edges verdict, (Loading.ofListing listing).solver.formula.analyse = .ok analysis ∧
      analysis.graph.edges = .ok edges ∧ Tells verdict (admissible listing.clauses) ∧
      ∀ options, ∃ report,
        (Command.run files e (.solve path options)).run before = (report, after) ∧
        report.failure = none ∧
        report.transcript.output.toList = Action.dumpLines options analysis edges ++ verdict ∧
        report.transcript.events.toList.filter Event.isSearch =
          [.searched ⟨analysis.graph.numVertices, analysis.graph.numEdges, analysis.partition.size⟩] ∧
        (options.crossCheck = true → Event.crossChecked ∈ report.transcript.events) := by
  have hz : ∀ halves ∈ admissible listing.clauses, halves.1 ≠ 0 ∧ halves.2 ≠ 0 :=
    ne_zero_of_mem_admissible
  have hsolver := Loading.solver_ofListing listing
  have hbuilt := Solver.built_ofHalves hz
  have hsize := Solver.size_ofHalves_lt hz hvars
  rcases hbuilt.exists_analyse hsize with ⟨a, ha, hrep⟩
  have hsnapshot := (Solver.snapshot_ofHalves (admissible listing.clauses)).trans ha
  rcases ((hbuilt.coherent hsize).wellFormed_graph hsize).exists_edges with ⟨edges, hedges, _⟩
  rw [← (Formula.analyse_eq_ok.1 ha).1] at hedges
  -- the solver has no analysis when it is first asked, so there is one search
  have hasked : Action.asked (Solver.ofHalves (admissible listing.clauses)) =
      [.searched ⟨a.graph.numVertices, a.graph.numEdges, a.partition.size⟩] := by
    rw [Action.asked, Solver.searches_of_none (Solver.analysis_ofHalves _) ha]
    rfl
  refine ⟨a, edges, Action.verdictLines
    (a.verdict (Solver.ofHalves (admissible listing.clauses)).formula.maxVar), hsolver ▸ ha, hedges,
    tells_verdictLines hz hvars hrep, ?_⟩
  intro options
  have hload := Action.leaves_loadSolver (m := StateM World) listing
  rw [hsolver] at hload
  have hleaves := hload.bind (Action.leaves_conclude listing options hsnapshot hedges
    (agrees_verdict he haccepts hz hvars hrep _))
  refine ⟨_, Command.run_solve hread hparse hleaves, rfl, ?_, ?_, ?_⟩
  · simp
  · simp only [hasked, List.filter_append, filter_loaded, filter_announced]
    cases options.crossCheck <;> rfl
  · intro hcross
    simp [hcross]

/-- Of these three clauses the second is skipped, and no clause is about the variables from `3` to `9`. -/
def skippedClause : ByteArray :=
  "p cnf 9 4\n1 -2 0\n0 5 0\n2 1 0\n".toUTF8

/-- One file that can be read. How often it was read is counted. -/
def oneFile (name : String) (contents : ByteArray) : Files (StateM Nat) where
  read path := do
    modify (· + 1)
    return if path = name then .ok contents else .error (.opening .noSuchFile)
  write _ _ := return .error .noSuchFile

/-- So two tokens are printed, whatever the switches are, and the file is read once. -/
theorem solve_tells_skippedClause :
    Propagation.engine.Right Propagation.IsVar ∧
    ((oneFile "f.cnf" skippedClause).read "f.cnf").run 0 = (.ok skippedClause, 1) ∧
    Listing.parseBytes skippedClause = .ok ⟨some 9, some 4, [(1, -2), (0, 5), (2, 1)]⟩ ∧
    (varsOf (admissible [(1, -2), (0, 5), (2, 1)])).toFinset.card < 2147483648 ∧
    (∀ x ∈ varsOf (admissible [(1, -2), (0, 5), (2, 1)]), Propagation.IsVar x.toNat) ∧
    ∃ tokens : List String, tokens.length = 2 ∧
      (∀ halves ∈ [((1 : Int32), (-2 : Int32)), (2, 1)], HalfTrueIn halves (valuationOf tokens)) ∧
      ∀ options, ∃ report,
        (Command.run (oneFile "f.cnf" skippedClause) Propagation.engine (.solve "f.cnf" options)).run 0 =
          (report, 1) ∧
        report.failure = none ∧
        (report.transcript.events.toList.filter Event.isSearch).length = 1 ∧
        ["SATISFIABLE", " ".intercalate tokens] <:+ report.transcript.output.toList := by
  have hread : ((oneFile "f.cnf" skippedClause).read "f.cnf").run 0 = (.ok skippedClause, 1) := rfl
  have hparse : Listing.parseBytes skippedClause =
      .ok ⟨some 9, some 4, [(1, -2), (0, 5), (2, 1)]⟩ := rfl
  have hkept : admissible [(1, -2), (0, 5), (2, 1)] = [(1, -2), (2, 1)] := by
    decide
  have hmentioned : varsOf [(1, -2), (2, 1)] = [1, 2, 2, 1] := by
    decide +kernel
  have hvars : (varsOf (admissible [(1, -2), (0, 5), (2, 1)])).toFinset.card < 2147483648 := by
    rw [hkept, hmentioned]
    decide +kernel
  have haccepts : ∀ x ∈ varsOf (admissible [(1, -2), (0, 5), (2, 1)]),
      Propagation.IsVar x.toNat := by
    rw [hkept, hmentioned]
    simp only [List.forall_mem_cons, List.not_mem_nil, false_implies, implies_true, and_true,
      Propagation.IsVar]
    decide
  rcases solve_tells (oneFile "f.cnf" skippedClause) Propagation.right_engine 0 1 _ _ _ hread hparse hvars
    haccepts with ⟨_, _, verdict, _, _, htells, hruns⟩
  rw [hkept] at htells
  have hall : ∀ halves ∈ [((1 : Int32), (-2 : Int32)), (2, 1)], HalfTrueIn halves fun _ => true := by
    simp only [List.forall_mem_cons, List.not_mem_nil, false_implies, implies_true, and_true]
    decide
  rcases htells.satisfiable ⟨_, hall⟩ with ⟨tokens, rfl, hsatisfies⟩
  have htwo : tokens.length = 2 := by
    have hmost : ∀ x ∈ [(1 : UInt32), 2, 2, 1], x.toNat ≤ 2 := by
      simp only [List.forall_mem_cons, List.not_mem_nil, false_implies, implies_true, and_true]
      decide
    rcases hsatisfies.ends (List.cons_ne_nil _ _) with ⟨x, hx, hlength⟩
    rw [hmentioned] at hx
    apply Nat.le_antisymm
    · rw [← hlength]
      exact hmost x hx
    · exact hsatisfies.covers 2 (by simp [hmentioned])
  refine ⟨Propagation.right_engine, hread, hparse, hvars, haccepts, tokens, htwo, hsatisfies.makesTrue, ?_⟩
  intro options
  rcases hruns options with ⟨report, hrun, hfailure, houtput, hsearches, _⟩
  refine ⟨report, hrun, hfailure, ?_, ⟨_, houtput.symm⟩⟩
  rw [hsearches]
  rfl

end TwoCnf
