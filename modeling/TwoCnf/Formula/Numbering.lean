import Std.Data.TreeMap
import TwoCnf.Literal

/-!
# Numbering — the vertices of the literals

Literals are numbered densely in the order in which they are first met. `lits` reads a literal off a
number, `ids` a number off a literal.
-/

namespace TwoCnf

/-- Literals and their numbers, in both directions. -/
structure Numbering where
  lits : Array Lit
  ids : Std.TreeMap Lit UInt32

namespace Numbering

/-- No literal has a number. -/
def empty : Numbering :=
  ⟨#[], ∅⟩

instance instInhabited : Inhabited Numbering :=
  ⟨empty⟩

/-- Two numberings are the same when they give the same numbers to the same literals. -/
instance instBEq : BEq Numbering where
  beq m n := m.ids == n.ids

/-- How many literals are numbered. -/
def size (n : Numbering) : Nat :=
  n.lits.size

/-- The number of a literal. -/
def id? (n : Numbering) (l : Lit) : Option UInt32 :=
  n.ids.get? l

/-- The literal of a number. -/
def lit? (n : Numbering) (id : UInt32) : Option Lit :=
  n.lits[id.toNat]?

/-- Gives the next number to a literal. -/
def push (n : Numbering) (l : Lit) : Numbering :=
  let id := UInt32.ofNat n.lits.size
  ⟨n.lits.push l, n.ids.insert l id⟩

end Numbering
end TwoCnf
