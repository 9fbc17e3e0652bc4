import Std.Data.TreeMap
import TwoCnf.Literal

/-!
# Model — truth values for the variables of a formula

A `Model` covers the variables `1` to `numVars`. It stores the values of some of them, and each
covered variable that is not stored is false. Two models may therefore agree on every variable and
still store different entries; `==` compares the entries.

* `Model.value?` is the reading of one variable, `Model.entries` of all covered ones;
* `Model.line` writes the values as tokens;
* `Lit.eval?` and `Clause.holds` evaluate literals and clauses. A literal outside the model has no
  value and does not make its clause true.
-/

namespace TwoCnf

/-- Truth values for the variables `1` to `numVars`. -/
structure Model where
  stored : Std.TreeMap UInt32 Bool
  numVars : UInt32

namespace Model

/-- The model that covers no variable. -/
def empty : Model :=
  ⟨∅, 0⟩

instance instInhabited : Inhabited Model :=
  ⟨empty⟩

/-- Equal bounds and equal stored entries. -/
instance instBEq : BEq Model where
  beq m n := m.numVars == n.numVars && m.stored == n.stored

/-- The model of a table of bits, of which place `0` is not used. Only true bits are stored. -/
def ofBits (bits : Array Bool) : Model where
  stored :=
    (bits.toList.zipIdx.drop 1).foldl
      (fun stored (bit, var) => if bit then stored.insert (UInt32.ofNat var) true else stored) ∅
  numVars := UInt32.ofNat (bits.size - 1)

/-- The stored value of a variable, false where none is stored. -/
def read (m : Model) (var : UInt32) : Bool :=
  (m.stored.get? var).getD false

/-- The value of a covered variable. -/
def value? (m : Model) (var : UInt32) : Option Bool :=
  if var = 0 ∨ m.numVars < var then none else some (m.read var)

/-- The variables `1` to `upto`, ascending. -/
def varsUpTo (upto : UInt32) : List UInt32 :=
  (List.range upto.toNat).map fun i => UInt32.ofNat (i + 1)

/-- The covered variables with their values, ascending. -/
def entries (m : Model) : List (UInt32 × Bool) :=
  (varsUpTo m.numVars).map fun var => (var, m.read var)

/-- A token per variable from `1` to `upto`: `1` for a true one, `0` for any other. -/
def line (m : Model) (upto : UInt32) : String :=
  " ".intercalate ((varsUpTo upto).map fun var => if (m.value? var).getD false then "1" else "0")

end Model

/-- The value of a literal whose variable the model covers. -/
def Lit.eval? (l : Lit) (m : Model) : Option Bool :=
  (m.value? l.var).map fun v => if l.sign then v else !v

/-- A clause holds when one of its literals has the value true. -/
def Clause.holds (c : Clause) (m : Model) : Bool :=
  c.left.eval? m == some true || c.right.eval? m == some true

end TwoCnf
