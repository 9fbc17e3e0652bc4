import TwoCnf.Literal

/-!
# Fault — asking for what is not there

The look-ups of this library that take a number or an edge on trust answer with a `Fault` when the
number is out of range or the edge is foreign.
-/

namespace TwoCnf

/-- A look-up that cannot be answered. -/
inductive Fault where
  | noVertex (id : UInt32)
  | outOfRange
  | edgeOutside (source target : Lit)
  deriving DecidableEq, Repr

/-- The wording of a fault. -/
def Fault.message : Fault → String
  | .noVertex id =>
      "vertex " ++ Text.Decimal.natural id.toNat ++ " is not in the implication graph"
  | .outOfRange => "index out of bounds"
  | .edgeOutside source target =>
      "edge " ++ source.text ++ " -> " ++ target.text ++ " has an endpoint outside the partition"

/-- An entry of an array, or a fault. -/
def entry {α : Type} (xs : Array α) (i : Nat) : Except Fault α :=
  match xs[i]? with
  | some x => .ok x
  | none => .error .outOfRange

/-- A computation in two parts succeeds when both parts do. -/
theorem bind_eq_ok {ε α β : Type} {first : Except ε α} {then_ : α → Except ε β} {b : β} :
    (first >>= then_) = .ok b ↔ ∃ a, first = .ok a ∧ then_ a = .ok b := by
  cases first with
  | error e => simp [bind, Except.bind]
  | ok a => simp [bind, Except.bind]

theorem entry_eq_ok {α : Type} {xs : Array α} {i : Nat} {x : α} :
    entry xs i = .ok x ↔ xs[i]? = some x := by
  unfold entry
  split
  · rename_i h
    simp [h]
  · rename_i h
    simp [h]

end TwoCnf
