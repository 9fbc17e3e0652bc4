import TwoCnf.Literal

/-!
# Engine — a solver that a referee relies on

An `Engine` decides clauses whose literals are signed integers. It is only known by what it is asked: a
clause is added, the clauses so far are decided, and after that there may be a model to read.
-/

namespace TwoCnf

/-- A solver from outside. Deciding may fail with a reason. A model is a list of literals to make true. -/
structure Engine where
  State : Type
  start : State
  add : State → Int → Int → State
  solve : State → Except String Bool × State
  model? : State → Option (List Int)

end TwoCnf
