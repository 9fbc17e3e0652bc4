import Std.Data.TreeMap
import TwoCnf.Fault

/-!
# Partition — literals grouped into components

A `Partition` lists components in the order in which they were closed, each as a list of literals, and
knows the component of each literal.
-/

namespace TwoCnf

/-- Components in closing order, and the number of the component of each literal. -/
structure Partition where
  components : Array (List Lit)
  byLit : Std.TreeMap Lit UInt32

namespace Partition

/-- No component. -/
def empty : Partition :=
  ⟨#[], ∅⟩

instance instInhabited : Inhabited Partition :=
  ⟨empty⟩

/-- The same components in the same order, and the same number for each literal. -/
instance instBEq : BEq Partition where
  beq p q := p.components == q.components && p.byLit == q.byLit

/-- How many components there are. -/
def size (p : Partition) : Nat :=
  p.components.size

/-- Whether there is no component. -/
def isEmpty (p : Partition) : Bool :=
  p.components.isEmpty

/-- The literals of a component. -/
def component (p : Partition) (i : Nat) : Except Fault (List Lit) :=
  entry p.components i

/-- The number of the component of a literal. -/
def componentOf? (p : Partition) (l : Lit) : Option Nat :=
  (p.byLit.get? l).map UInt32.toNat

/-- The size of the largest component, `0` for none. -/
def largest (p : Partition) : Nat :=
  p.components.foldl (fun top lits => max top lits.length) 0

/-- Closes one more component. -/
def push (p : Partition) (lits : List Lit) : Partition :=
  let i := UInt32.ofNat p.components.size
  ⟨p.components.push lits, lits.foldl (fun byLit l => byLit.insert l i) p.byLit⟩

end Partition
end TwoCnf
