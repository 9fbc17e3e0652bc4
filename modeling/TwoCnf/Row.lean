/-!
# Row — distinct numbers in the order of their first insertion

A `Row` lists the successors of one vertex, of the implication graph or of its condensation. Inserting
a number that is already listed changes nothing.
-/

namespace TwoCnf

/-- Numbers in the order in which they were first inserted. -/
structure Row where
  ids : Array UInt32
  deriving DecidableEq, Repr, Inhabited

namespace Row

/-- The row that lists nothing. -/
def empty : Row :=
  ⟨#[]⟩

/-- Lists a number at the end unless it is listed already. -/
def insert (r : Row) (id : UInt32) : Row :=
  if r.ids.contains id then r else ⟨r.ids.push id⟩

theorem mem_ids_insert (r : Row) (id x : UInt32) :
    x ∈ (r.insert id).ids ↔ x = id ∨ x ∈ r.ids := by
  unfold insert
  split
  · rename_i h
    have : id ∈ r.ids := by simpa using h
    constructor
    · exact Or.inr
    · rintro (rfl | hx)
      · exact this
      · exact hx
  · simp [or_comm]

end Row
end TwoCnf
