import TwoCnf.Listing.Basic
import TwoCnf.Solver.Basic

/-!
# Loading — a solver from a listing

All clauses of a listing are added in order, except those with a zero half. What was noticed on the
way is kept as a list of remarks: each skipped clause, then each declared count that the added clauses
do not bear out.
-/

namespace TwoCnf

/-- What is noticed while loading a listing. -/
inductive Remark where
  | skipped (complaint : ZeroHalf)
  | variableCount (declared seen : UInt32)
  | clauseCount (declared : UInt64) (seen : Nat)
  deriving DecidableEq, Repr

/-- A solver that is being loaded, and the complaints about the skipped clauses in order. -/
structure Loading where
  solver : Solver
  skipped : Array ZeroHalf

namespace Loading

/-- Adds one clause, or skips it. -/
def add (l : Loading) (clause : Int32 × Int32) : Loading :=
  let ⟨solver, skipped⟩ := l
  match solver.insert clause.1 clause.2 with
  | (.ok (), solver) => ⟨solver, skipped⟩
  | (.error complaint, solver) => ⟨solver, skipped.push complaint⟩

/-- Adds the clauses of a listing. -/
def ofListing (l : Listing) : Loading :=
  l.clauses.foldl add ⟨.empty, #[]⟩

/-- The remarks on loading a listing. -/
def remarks (l : Loading) (source : Listing) : List Remark :=
  let counts := l.solver.formula.counts
  let vars :=
    source.declaredVars.toList.filterMap fun declared =>
      if declared = counts.maxVar then none else some (Remark.variableCount declared counts.maxVar)
  let clauses :=
    source.declaredClauses.toList.filterMap fun declared =>
      if declared.toNat = counts.clauses then none
      else some (Remark.clauseCount declared counts.clauses)
  l.skipped.toList.map Remark.skipped ++ vars ++ clauses

end Loading
end TwoCnf
