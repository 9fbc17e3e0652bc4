import TwoCnf.Component.Search
import TwoCnf.Model

/-!
# Solver — deciding a formula by its components

A formula is unsatisfiable exactly when some variable implies its negation and the other way round,
that is, when both literals share a component of the implication graph. Otherwise the components in
closing order give a model: a component is made true unless its variables are already settled.

A `Solver` is a formula under collection along with the `Analysis` of its clauses, once that has been
asked for. A query uses the analysis at hand or makes it by a search, of which it leaves a record; adding
a clause drops the analysis; a refused clause leaves everything as it was.
-/

namespace TwoCnf

/-! ## Reading the components -/

namespace Partition

/-- The first variable, in closing order, whose two literals share a component. -/
def conflict? (p : Partition) : Option UInt32 :=
  p.components.toList.zipIdx.findSome? fun (lits, i) =>
    (lits.find? fun l => p.componentOf? l.neg == some i).map Lit.var

/-- Makes the literals of a component true unless its first one has a value already. -/
def assign (stored : Std.TreeMap UInt32 Bool) (lits : List Lit) : Std.TreeMap UInt32 Bool :=
  match lits with
  | [] => stored
  | first :: _ =>
      if stored.contains first.var then stored
      else lits.foldl (fun stored l => stored.insert l.var l.sign) stored

/-- The model that the components give for the variables up to `numVars`. -/
def resolve (p : Partition) (numVars : UInt32) : Model :=
  ⟨p.components.foldl assign ∅, numVars⟩

end Partition

/-- Whether all clauses of a formula hold in a model. -/
def Formula.check (f : Formula) (m : Model) : Bool :=
  f.clauses.all (·.holds m)

/-- What a formula comes to: a model, or a variable that contradicts itself. -/
inductive Verdict where
  | satisfiable (model : Model)
  | contradiction (var : UInt32)

/-- Whether the verdict is a model. -/
def Verdict.isSatisfiable : Verdict → Bool
  | .satisfiable _ => true
  | .contradiction _ => false

/-! ## The solver -/

/-- The implication graph of a formula and its components. -/
structure Analysis where
  graph : Graph
  partition : Partition

/-- A formula, and its analysis if there is one at hand. -/
structure Solver where
  formula : Formula
  analysis : Option Analysis

/-- A question to a solver, which may search the graph and leave the analysis at hand. -/
abbrev Query (α : Type) :=
  StateT Solver Recorded α

namespace Solver

/-- The solver of the empty formula. -/
def empty : Solver :=
  ⟨.empty, none⟩

instance instInhabited : Inhabited Solver :=
  ⟨empty⟩

/-- Adds a clause and drops the analysis. -/
def add (s : Solver) (c : Clause) : Solver :=
  ⟨s.formula.insert c, none⟩

/-- Adds the clause of two signed halves and drops the analysis, or refuses the halves. Either way the
solver that is left comes back. -/
def insert (s : Solver) (a b : Int32) : Except ZeroHalf Unit × Solver :=
  let ⟨formula, analysis⟩ := s
  match formula.insertSigned a b with
  | (.ok _, formula) => (.ok (), ⟨formula, none⟩)
  | (.error complaint, formula) => (.error complaint, ⟨formula, analysis⟩)

/-- Adding by halves is adding the clause of the halves. -/
theorem insert_of_ok (s : Solver) {a b : Int32} {c : Clause} (h : Clause.ofSigned a b = .ok c) :
    s.insert a b = (.ok (), s.add c) := by
  rcases s with ⟨formula, analysis⟩
  have hins : formula.insertSigned a b = (.ok c, formula.insert c) :=
    Formula.insertSigned_eq_ok.2 ⟨h, rfl⟩
  simp only [insert, hins, add]

/-- A refused clause leaves the solver as it was, with the analysis that is at hand. -/
theorem insert_of_error (s : Solver) {a b : Int32} {complaint : ZeroHalf}
    (h : Clause.ofSigned a b = .error complaint) : s.insert a b = (.error complaint, s) := by
  rcases s with ⟨formula, analysis⟩
  have hins : formula.insertSigned a b = (.error complaint, formula) :=
    Formula.insertSigned_eq_error.2 ⟨h, rfl⟩
  simp only [insert, hins]

/-- Adds clauses in order up to the first that is refused. -/
def insertMany (s : Solver) : List (Int32 × Int32) → Except ZeroHalf Unit × Solver
  | [] => (.ok (), s)
  | (a, b) :: rest =>
      match s.insert a b with
      | (.ok (), s) => insertMany s rest
      | (.error complaint, s) => (.error complaint, s)

/-- The solver of a list of clauses, none of which may be refused. -/
def ofClauses (clauses : List (Int32 × Int32)) : Except ZeroHalf Solver :=
  match insertMany .empty clauses with
  | (.ok (), s) => .ok s
  | (.error complaint, _) => .error complaint

/-- The analysis of the clauses. -/
def analysed : Query Analysis := do
  let s ← get
  match s.analysis with
  | some analysis => return analysis
  | none =>
      let graph := s.formula.graph
      let analysis := ⟨graph, ← graph.search⟩
      set { s with analysis := some analysis }
      return analysis

/-- The implication graph. -/
def graph : Query Graph :=
  return (← analysed).graph

/-- The components. -/
def partition : Query Partition :=
  return (← analysed).partition

/-- A variable whose two literals imply each other. -/
def conflict? : Query (Option UInt32) :=
  return (← partition).conflict?

/-- Whether some model satisfies all clauses. -/
def isSatisfiable : Query Bool :=
  return (← conflict?).isNone

/-- The model that the components give. -/
def resolve : Query Model := do
  let p ← partition
  return p.resolve (← get).formula.maxVar

/-- A model of the clauses. -/
def model? : Query (Option Model) := do
  if ← isSatisfiable then return some (← resolve) else return none

/-- A model of the clauses, or a variable that contradicts itself. -/
def verdict : Query Verdict := do
  match ← conflict? with
  | some var => return .contradiction var
  | none => return .satisfiable (← resolve)

end Solver
end TwoCnf
