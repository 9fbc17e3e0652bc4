import TwoCnf.Solver.Loading

/-!
# Event — what the commands log

Every event has a level, an origin and a text. The verbosity of a run decides which levels are shown.
-/

namespace TwoCnf

/-- How much an event matters. -/
inductive Level where
  | warn
  | info
  | debug
  deriving DecidableEq, Repr

namespace Level

/-- The name of a level. -/
def name : Level → String
  | .warn => "WARN"
  | .info => "INFO"
  | .debug => "DEBUG"

/-- The least verbosity at which a level is shown. -/
def threshold : Level → Nat
  | .warn => 0
  | .info => 1
  | .debug => 2

end Level

/-- Something that happened during a run. -/
inductive Event where
  | remark (remark : Remark)
  | loaded (clauses skipped : Nat)
  | searched (search : SearchRecord)
  | crossChecked
  | freeVariables (declared seen : UInt32)
  | contradiction (var : UInt32)
  deriving DecidableEq, Repr

namespace Event

open Text

/-- The level of an event. -/
def level : Event → Level
  | .remark (.skipped _) => .warn
  | .remark (.variableCount _ _) => .info
  | .remark (.clauseCount _ _) => .info
  | .loaded _ _ => .debug
  | .searched _ => .debug
  | .crossChecked => .info
  | .freeVariables _ _ => .info
  | .contradiction _ => .info

/-- The part of the program that an event comes from. -/
def origin : Event → String
  | .remark _ => "twosat::solver::problem"
  | .loaded _ _ => "twosat::solver::problem"
  | .searched _ => "twosat::scc::tarjan"
  | .crossChecked => "twosat"
  | .freeVariables _ _ => "twosat"
  | .contradiction _ => "twosat"

/-- A named number, with a blank in front. -/
def labelled (name : String) (n : Nat) : String :=
  " " ++ name ++ "=" ++ Decimal.natural n

/-- The text of an event. -/
def text : Event → String
  | .remark (.skipped complaint) => "skipping clause: " ++ complaint.message
  | .remark (.variableCount declared seen) =>
      "variable count differs from preamble" ++ labelled "declared" declared.toNat
        ++ labelled "seen" seen.toNat
  | .remark (.clauseCount declared seen) =>
      "clause count differs from preamble" ++ labelled "declared" declared.toNat
        ++ labelled "seen" seen
  | .loaded clauses skipped =>
      "clause file loaded" ++ labelled "clauses" clauses ++ labelled "skipped" skipped
  | .searched search =>
      "tarjan finished" ++ labelled "vertices" search.vertices ++ labelled "edges" search.edges
        ++ labelled "components" search.components
  | .crossChecked => "cross-check with varisat agrees"
  | .freeVariables declared seen =>
      "trailing declared variables are free" ++ labelled "declared" declared.toNat
        ++ labelled "seen" seen.toNat
  | .contradiction var =>
      "variable and its negation share a component" ++ labelled "var" var.toNat

/-- An event as a line of the log. -/
def line (e : Event) : String :=
  e.level.name ++ " " ++ e.origin ++ ": " ++ e.text

/-- Whether an event is shown at a verbosity. -/
def isShown (verbosity : Nat) (e : Event) : Bool :=
  e.level.threshold ≤ verbosity

end Event
end TwoCnf
