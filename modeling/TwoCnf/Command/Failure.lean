import TwoCnf.Command.Files
import TwoCnf.Listing.Reader
import TwoCnf.Random.Instance
import TwoCnf.Reference.Referee

/-!
# Failure — why a command gives up

A failure has a headline and the causes behind it, outermost first.
-/

namespace TwoCnf

/-- Why a command gives up. -/
inductive Failure where
  | opening (path : String) (e : OsError)
  | reading (path : String) (e : OsError)
  | parsing (path : String) (e : Listing.ReadError)
  | recipe (e : RecipeError)
  | writing (path : String) (e : OsError)
  | noOpinion (e : RefereeError)
  | disagreement (components referee : Bool)
  | fault (e : Fault)
  deriving DecidableEq, Repr

namespace Failure

/-- The wording of a truth value. -/
def truthValue (b : Bool) : String :=
  if b then "true" else "false"

/-- What the command was about. -/
def headline : Failure → String
  | .opening path _ => "failed to open " ++ path
  | .reading path _ => "malformed clause file " ++ path
  | .parsing path _ => "malformed clause file " ++ path
  | .recipe e => e.message
  | .writing path _ => "failed to write " ++ path
  | .noOpinion e => e.message
  | .disagreement components referee =>
      "cross-check failed: scc says " ++ truthValue components ++ ", varisat says "
        ++ truthValue referee
  | .fault e => e.message

/-- What stands behind the headline. A failure to read is named together with its own cause. -/
def causes : Failure → List String
  | .opening _ e => [e.message]
  | .reading _ e => [Listing.readingFailed ++ e.message, e.message]
  | .parsing _ .notText => [Listing.readingFailed ++ Listing.notUtf8, Listing.notUtf8]
  | .parsing _ e => [e.message]
  | .recipe _ => []
  | .writing _ e => [e.message]
  | .noOpinion _ => []
  | .disagreement _ _ => []
  | .fault _ => []

/-- The code that a failed run leaves: `101` when it ran out of room or met a fault, else `1`. -/
def exitCode : Failure → Nat
  | .recipe .tooManyClauses => 101
  | .recipe (.fault _) => 101
  | .fault _ => 101
  | _ => 1

/-- The causes as lines. Several causes are numbered from `0`. -/
def causeLines : List String → List String
  | [cause] => ["    " ++ cause]
  | causes => causes.zipIdx.map fun (cause, i) => "    " ++ Text.Decimal.natural i ++ ": " ++ cause

/-- The report of a failure, in lines. -/
def lines (f : Failure) : List String :=
  ("Error: " ++ f.headline) ::
    (if f.causes.isEmpty then [] else "" :: "Caused by:" :: causeLines f.causes)

end Failure
end TwoCnf
