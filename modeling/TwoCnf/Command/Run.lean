import TwoCnf.Command.Arguments
import TwoCnf.Command.Event
import TwoCnf.Command.Failure
import TwoCnf.Listing.Printer

/-!
# Run — the commands

A command reaches files through `Files`, has an `Engine` for a second opinion, and leaves a `Transcript` of
what it printed and logged. It either succeeds or gives up with a `Failure`; what was printed and logged
before stays in the transcript.

* `Command.run` carries a command out;
* `Report` is what a run leaves: the transcript, and the failure if there was one.
-/

namespace TwoCnf

/-- The lines printed and the events logged so far. -/
structure Transcript where
  output : Array String
  events : Array Event

/-- What a run leaves. -/
structure Report where
  transcript : Transcript
  failure : Option Failure

/-- A command under way in the monad of its files. -/
abbrev Action (m : Type → Type) (α : Type) :=
  ExceptT Failure (StateT Transcript m) α

namespace Action

open Text

variable {m : Type → Type} [Monad m]

/-- Prints a line. -/
def say (line : String) : Action m Unit :=
  modify fun t => { t with output := t.output.push line }

/-- Logs an event. -/
def log (event : Event) : Action m Unit :=
  modify fun t => { t with events := t.events.push event }

/-- Takes the value of a look-up, or gives up. -/
def obtain {α : Type} (result : Except Fault α) : Action m α :=
  match result with
  | .ok a => return a
  | .error e => throw (.fault e)

/-- Asks a solver, and logs every search that the question takes. -/
def ask {α : Type} (q : Query α) (s : Solver) : Action m (α × Solver) := do
  let answer := q.run s
  answer.searches.forM fun search => log (.searched search)
  obtain answer.result

/-! ## Loading -/

/-- Reads the listing at a path. -/
def readListing (files : Files m) (path : String) : Action m Listing := do
  match ← files.read path with
  | .error (.opening e) => throw (.opening path e)
  | .error (.reading e) => throw (.reading path e)
  | .ok bytes =>
      match Listing.parseBytes bytes with
      | .ok listing => return listing
      | .error e => throw (.parsing path e)

/-- Loads a listing into a solver, and logs what was noticed. -/
def loadSolver (listing : Listing) : Action m Solver := do
  let loading := Loading.ofListing listing
  (loading.remarks listing).forM fun remark => log (.remark remark)
  log (.loaded loading.solver.formula.clauses.size loading.skipped.size)
  return loading.solver

/-! ## Solving -/

/-- Prints the implications. -/
def dumpGraph (s : Solver) : Action m Solver := do
  let (g, s) ← ask Solver.graph s
  (← obtain g.edges).forM fun (source, target) =>
    say ("c edge " ++ source.text ++ " -> " ++ target.text)
  return s

/-- The line of a component. -/
def componentLine (i : Nat) (lits : List Lit) : String :=
  "c scc " ++ Decimal.natural i ++ ": " ++ " ".intercalate (lits.map Lit.text)

/-- Prints the components. -/
def dumpComponents (s : Solver) : Action m Solver := do
  let (p, s) ← ask Solver.partition s
  p.components.toList.zipIdx.forM fun (lits, i) => say (componentLine i lits)
  return s

/-- Holds a verdict against that of the referee with an engine. -/
def crossCheck (e : Engine) (s : Solver) (verdict : Verdict) : Action m Unit := do
  match Referee.isSatisfiable e s.formula.clauses with
  | .error reason => throw (.noOpinion reason)
  | .ok expected =>
      if expected = verdict.isSatisfiable then log .crossChecked
      else throw (.disagreement verdict.isSatisfiable expected)

/-- Prints a verdict. -/
def announce (listing : Listing) : Verdict → Action m Unit
  | .satisfiable model => do
      say "SATISFIABLE"
      match listing.declaredVars with
      | some declared =>
          if model.numVars < declared then log (.freeVariables declared model.numVars)
      | none => pure ()
      say (model.line model.numVars)
  | .contradiction var => do
      log (.contradiction var)
      say "UNSATISFIABLE"

/-- Decides the listing at a path. -/
def solve (files : Files m) (e : Engine) (path : String) (options : SolveOptions) : Action m Unit := do
  let listing ← readListing files path
  let s ← loadSolver listing
  let s ← if options.dumpGraph then dumpGraph s else pure s
  let s ← if options.dumpComponents then dumpComponents s else pure s
  let (verdict, s) ← ask Solver.verdict s
  if options.crossCheck then crossCheck e s verdict
  announce listing verdict

/-! ## Counting and generating -/

/-- Prints the sizes of the listing at a path. -/
def stats (files : Files m) (path : String) : Action m Unit := do
  let listing ← readListing files path
  let s ← loadSolver listing
  let counts := s.formula.counts
  let (p, _) ← ask Solver.partition s
  say ("vars=" ++ Decimal.natural listing.numVars.toNat
    ++ " clauses=" ++ Decimal.natural counts.clauses
    ++ " literals=" ++ Decimal.natural counts.literals
    ++ " implications=" ++ Decimal.natural counts.implications)
  say ("components=" ++ Decimal.natural p.size
    ++ " largest_component=" ++ Decimal.natural p.largest)

/-- Writes an instance to a path. -/
def generate (files : Files m) (recipe : Recipe) (out : String) : Action m Unit := do
  match recipe.generate with
  | .error e => throw (.recipe e)
  | .ok inst =>
      match ← files.write out inst.listing.render with
      | .error e => throw (.writing out e)
      | .ok () =>
          say ("GEN: wrote " ++ out
            ++ " | vars=" ++ Decimal.natural recipe.vars.toNat
            ++ " clauses=" ++ Decimal.natural recipe.clauses.toNat
            ++ " planted=" ++ Failure.truthValue recipe.planted)

end Action

namespace Command

variable {m : Type → Type} [Monad m]

/-- The action of a command. -/
def action (files : Files m) (e : Engine) : Command → Action m Unit
  | .solve path options => Action.solve files e path options
  | .stats path => Action.stats files path
  | .generate recipe out => Action.generate files recipe out

/-- Carries a command out. -/
def run (files : Files m) (e : Engine) (c : Command) : m Report := do
  match ← (c.action files e).run.run ⟨#[], #[]⟩ with
  | (.ok (), transcript) => return ⟨transcript, none⟩
  | (.error failure, transcript) => return ⟨transcript, some failure⟩

end Command

namespace Report

/-- The code that a run leaves, `0` unless it gave up. -/
def exitCode (r : Report) : Nat :=
  match r.failure with
  | some failure => failure.exitCode
  | none => 0

/-- The lines of the log that are shown at a verbosity. -/
def logLines (r : Report) (verbosity : Nat) : List String :=
  (r.transcript.events.toList.filter (Event.isShown verbosity)).map Event.line

/-- The lines that complain. -/
def complaintLines (r : Report) : List String :=
  match r.failure with
  | some failure => failure.lines
  | none => []

end Report

/-- The exit code of a run that was asked for in words not understood. -/
def usageExitCode : Nat :=
  2

end TwoCnf
