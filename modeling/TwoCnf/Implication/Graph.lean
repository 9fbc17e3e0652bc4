import TwoCnf.Fault
import TwoCnf.Formula.Basic

/-!
# Graph — the implication graph of a formula

A `Graph` is a snapshot of the implications of a formula. The rows of all vertices stand one after the
other in `targets`; the row of vertex `v` starts at `offsets[v]` and ends before `offsets[v + 1]`.

* `Formula.graph` takes the snapshot;
* `Graph.lit` and `Graph.vertexOf?` go between vertices and literals;
* `Graph.successors` is the row of a vertex, `Graph.successorAt` one entry of it, and `Graph.edges`
  lists all implications between literals.
-/

namespace TwoCnf

/-- Vertices with their literals, and the successors of all vertices in one array. -/
structure Graph where
  numbering : Numbering
  offsets : Array Nat
  targets : Array UInt32

/-- Lays the rows out one after the other. -/
def Formula.graph (f : Formula) : Graph :=
  let (offsets, targets) :=
    f.rows.foldl
      (fun (offsets, targets) row =>
        let targets := targets ++ row.ids
        (offsets.push targets.size, targets))
      (#[0], #[])
  ⟨f.numbering, offsets, targets⟩

namespace Graph

/-- Same numbers for the same literals, and the same rows. -/
instance instBEq : BEq Graph where
  beq g h := g.numbering == h.numbering && g.offsets == h.offsets && g.targets == h.targets

/-- How many vertices there are. -/
def numVertices (g : Graph) : Nat :=
  g.numbering.size

/-- How many edges there are. -/
def numEdges (g : Graph) : Nat :=
  g.targets.size

/-- The vertices, ascending. -/
def vertices (g : Graph) : List UInt32 :=
  (List.range (UInt32.ofNat g.numVertices).toNat).map UInt32.ofNat

/-- The literal of a vertex. -/
def lit (g : Graph) (v : UInt32) : Except Fault Lit :=
  match g.numbering.lit? v with
  | some l => .ok l
  | none => .error (.noVertex v)

/-- The vertex of a literal. -/
def vertexOf? (g : Graph) (l : Lit) : Option UInt32 :=
  g.numbering.id? l

/-- Where the row of a vertex starts and where it ends. -/
def span (g : Graph) (v : UInt32) : Except Fault (Nat × Nat) := do
  let start ← entry g.offsets v.toNat
  let stop ← entry g.offsets (v.toNat + 1)
  if start ≤ stop ∧ stop ≤ g.targets.size then .ok (start, stop) else .error .outOfRange

/-- The successors of a vertex. -/
def successors (g : Graph) (v : UInt32) : Except Fault (List UInt32) := do
  let (start, stop) ← g.span v
  return (g.targets.extract start stop).toList

/-- The successor at a place of a vertex's row, `none` past the end of the row. -/
def successorAt (g : Graph) (v : UInt32) (place : Nat) : Except Fault (Option UInt32) := do
  let (start, stop) ← g.span v
  if start + place < stop then some <$> entry g.targets (start + place) else return none

/-- How many successors a vertex has. -/
def degree (g : Graph) (v : UInt32) : Nat :=
  match g.span v with
  | .ok (start, stop) => stop - start
  | .error _ => 0

/-- The edges that leave a vertex, between literals. -/
def edgesFrom (g : Graph) (v : UInt32) : Except Fault (List (Lit × Lit)) := do
  (← g.successors v).mapM fun w => return (← g.lit v, ← g.lit w)

/-- All edges, by source vertex and then by place in its row. -/
def edges (g : Graph) : Except Fault (List (Lit × Lit)) := do
  return (← g.vertices.mapM g.edgesFrom).flatten

/-- A place that has a successor lies within the row. -/
theorem lt_degree_of_successorAt {g : Graph} {v w : UInt32} {place : Nat}
    (h : g.successorAt v place = .ok (some w)) : place < g.degree v := by
  unfold successorAt at h
  unfold degree
  cases hs : g.span v with
  | error e => simp [hs, bind, Except.bind] at h
  | ok p =>
    obtain ⟨start, stop⟩ := p
    simp only [hs, bind, Except.bind] at h
    split at h
    · simp only
      omega
    · simp [pure, Except.pure] at h

end Graph
end TwoCnf
