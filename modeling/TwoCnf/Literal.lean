import Std.Data.TreeMap
import TwoCnf.Text.Decimal

/-!
# Literal — signed variables and clauses of two literals

A formula in conjunctive normal form with two literals per clause is written in signed integers:
`v` stands for the variable `v`, `-v` for its negation, and `0` is kept for ending a clause.

* `Lit` is a variable together with its polarity, ordered by variable and then by polarity;
* `Lit.ofSigned?` and `Lit.toInt` go between literals and signed integers;
* `Clause` is a disjunction of two literals, and `Clause.ofSigned` refuses a zero half.
-/

namespace TwoCnf

/-! ## Literals -/

/-- A variable or its negation. `sign` is `true` for the variable itself. -/
structure Lit where
  var : UInt32
  sign : Bool
  deriving DecidableEq, Repr, Inhabited

/-- The absolute value of a signed half. `-2147483648` has one too, since the result is unsigned. -/
def magnitude (x : Int32) : UInt32 :=
  UInt32.ofNat x.toInt.natAbs

namespace Lit

/-- The literal of the opposite polarity. -/
def neg (l : Lit) : Lit :=
  { l with sign := !l.sign }

/-- The literal that a signed integer stands for; `0` stands for none. -/
def ofSigned? (x : Int32) : Option Lit :=
  if x = 0 then none else some ⟨magnitude x, decide (0 < x)⟩

/-- The signed integer that stands for a literal. -/
def toInt (l : Lit) : Int :=
  if l.sign then (l.var.toNat : Int) else -(l.var.toNat : Int)

/-- A literal is written as its signed integer. -/
def text (l : Lit) : String :=
  Text.Decimal.integer l.toInt

/-- Literals are ordered by variable; of two with one variable, the negative comes first. -/
instance instOrd : Ord Lit where
  compare := compareLex (compareOn Lit.var) (compareOn Lit.sign)

instance instTransOrd : Std.TransOrd Lit :=
  inferInstanceAs (Std.TransCmp (compareLex (compareOn Lit.var) (compareOn Lit.sign)))

theorem compare_eq_then (l m : Lit) :
    compare l m = (compare l.var m.var).then (compare l.sign m.sign) :=
  rfl

instance instLawfulEqOrd : Std.LawfulEqOrd Lit where
  compare_self {l} := by
    rw [compare_eq_then]
    simp only [Std.compare_self, Ordering.then_eq_eq, and_self]
  eq_of_compare {l m} h := by
    rw [compare_eq_then, Ordering.then_eq_eq] at h
    cases l
    cases m
    simp_all

@[simp] theorem neg_var (l : Lit) : l.neg.var = l.var :=
  rfl

@[simp] theorem neg_sign (l : Lit) : l.neg.sign = !l.sign :=
  rfl

@[simp] theorem neg_neg (l : Lit) : l.neg.neg = l := by
  cases l
  simp [neg]

theorem neg_ne (l : Lit) : l.neg ≠ l := by
  cases l
  simp [neg]

end Lit

/-! ## Clauses -/

/-- The disjunction of two literals, which may coincide. -/
structure Clause where
  left : Lit
  right : Lit
  deriving DecidableEq, Repr, Inhabited

/-- The complaint about a pair of halves of which at least one is zero. -/
structure ZeroHalf where
  left : Int32
  right : Int32
  deriving DecidableEq, Repr

/-- The wording of the complaint. -/
def ZeroHalf.message (e : ZeroHalf) : String :=
  "invalid literal in clause (" ++ Text.Decimal.integer e.left.toInt ++ " "
    ++ Text.Decimal.integer e.right.toInt ++ "): 0 is the clause terminator"

namespace Clause

/-- Reads a clause from its two signed halves. Both have to stand for a literal. -/
def ofSigned (a b : Int32) : Except ZeroHalf Clause :=
  match Lit.ofSigned? a, Lit.ofSigned? b with
  | some l, some m => .ok ⟨l, m⟩
  | _, _ => .error ⟨a, b⟩

end Clause

end TwoCnf
