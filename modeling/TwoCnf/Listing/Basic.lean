import TwoCnf.Literal

/-!
# Listing — clauses as they stand in a file

A `Listing` holds the halves of the clauses of a file in their order, and the two counts of its
preamble if it has one. The counts are hearsay: nothing here requires them to agree with the clauses.
A half may be zero; whoever uses the listing decides what to do with such a clause.
-/

namespace TwoCnf

/-- The counts that a preamble declares. -/
structure Preamble where
  vars : UInt32
  clauses : UInt64
  deriving DecidableEq, Repr

/-- The clauses of a file, by their signed halves, and the declared counts. -/
structure Listing where
  declaredVars : Option UInt32
  declaredClauses : Option UInt64
  clauses : List (Int32 × Int32)
  deriving DecidableEq, Repr

namespace Listing

/-- The largest absolute value of a half, `0` for no clauses. -/
def maxVar (l : Listing) : UInt32 :=
  l.clauses.foldl (fun top (a, b) => max top (max (magnitude a) (magnitude b))) 0

/-- The number of variables to reckon with: what is declared or, if larger, what is used. -/
def numVars (l : Listing) : UInt32 :=
  max (l.declaredVars.getD 0) l.maxVar

end Listing
end TwoCnf
