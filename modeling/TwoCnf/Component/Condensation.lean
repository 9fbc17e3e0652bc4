import TwoCnf.Component.Partition
import TwoCnf.Implication.Graph
import TwoCnf.Row

/-!
# Condensation — the graph between components

The condensation of a graph by a partition has a row per component, which lists the other components
that an edge leads to, in the order in which the edges of the graph first lead there. The partition
may come from another graph; an edge with an end that it does not cover is a fault.
-/

namespace TwoCnf

/-- Enters one edge of the graph into the rows. -/
def Partition.condense (p : Partition) (rows : Array Row) (edge : Lit × Lit) :
    Except Fault (Array Row) :=
  match p.componentOf? edge.1, p.componentOf? edge.2 with
  | some source, some target =>
      if source = target then .ok rows
      else if source < rows.size then
        .ok (rows.modify source (·.insert (UInt32.ofNat target)))
      else .error .outOfRange
  | _, _ => .error (.edgeOutside edge.1 edge.2)

/-- The rows of the condensation, one per component. -/
def condensation (g : Graph) (p : Partition) : Except Fault (Array Row) := do
  (← g.edges).foldlM p.condense (Array.replicate p.size .empty)

end TwoCnf
