import TwoCnf.Reference.Engine
import TwoCnf.Valuation

/-!
# Referee — a second opinion on a formula

A `Referee` passes clauses on to an engine and asks it to decide them. Clauses may be added after a
decision. The literals of the engine's model are spread over a table of bits, which has a place for every
variable up to the largest one, whether the engine names it or not.
-/

namespace TwoCnf

/-- An engine with some clauses, and the largest variable of these. -/
structure Referee (e : Engine) where
  state : e.State
  maxVar : UInt32

/-- Why there is no second opinion. -/
inductive RefereeError where
  | failed (reason : String)
  | noModel
  deriving DecidableEq, Repr

/-- The wording of an error. -/
def RefereeError.message : RefereeError → String
  | .failed reason => "varisat failed: " ++ reason
  | .noModel => "varisat reported sat without a model"

namespace Referee

variable {e : Engine}

/-- No clause has been added. -/
def empty : Referee e :=
  ⟨e.start, 0⟩

/-- Adds a clause. -/
def add (r : Referee e) (c : Clause) : Referee e :=
  ⟨e.add r.state c.left.toInt c.right.toInt, max (max r.maxVar c.left.var) c.right.var⟩

/-- The table of bits that makes literals true. Its place `0` is not used, and it ends with `maxVar`;
literals beyond it are left out, and the bits of other variables are false. -/
def table (maxVar : UInt32) (lits : List Int) : Array Bool :=
  lits.foldl (fun bits x => bits.setIfInBounds x.natAbs (decide (0 < x)))
    (Array.replicate (maxVar.toNat + 1) false)

/-- A table that makes all clauses true, if the engine finds a model. -/
def solve (r : Referee e) : Except RefereeError (Option (Array Bool)) × Referee e :=
  let (decision, state) := e.solve r.state
  let answer :=
    match decision with
    | .error reason => .error (.failed reason)
    | .ok false => .ok none
    | .ok true =>
        match e.model? state with
        | none => .error .noModel
        | some lits => .ok (some (table r.maxVar lits))
  (answer, { r with state := state })

/-- Adds clauses from left to right. -/
def ofClauses (e : Engine) (clauses : Array Clause) : Referee e :=
  clauses.foldl add .empty

/-- Whether the clauses can be made true. -/
def isSatisfiable (e : Engine) (clauses : Array Clause) : Except RefereeError Bool :=
  (ofClauses e clauses).solve.1.map Option.isSome

end Referee
end TwoCnf
