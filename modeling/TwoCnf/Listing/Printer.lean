import TwoCnf.Listing.Basic

/-!
# Printer — the canonical text of a listing

One preamble line with the exact counts, then one line per clause, each ended by `0`.
-/

namespace TwoCnf
namespace Listing

open Text

/-- The line of one clause. -/
def clauseLine (clause : Int32 × Int32) : String :=
  Decimal.integer clause.1.toInt ++ " " ++ Decimal.integer clause.2.toInt ++ " 0\n"

/-- The preamble line. It counts the clauses at hand, whatever was declared. -/
def preambleLine (l : Listing) : String :=
  "p cnf " ++ Decimal.natural l.numVars.toNat ++ " " ++ Decimal.natural l.clauses.length ++ "\n"

/-- The canonical text. -/
def render (l : Listing) : String :=
  l.preambleLine ++ String.join (l.clauses.map clauseLine)

end Listing
end TwoCnf
