import TwoCnf.Formula.Numbering
import TwoCnf.Row

/-!
# Formula — clauses under collection

A `Formula` keeps its clauses in order, together with the implications they amount to: the clause
`a ∨ b` says that `¬a` implies `b` and that `¬b` implies `a`. Every literal of a clause gets a vertex
along with its negation, so the vertices are closed under negation even where no implication starts.

* `Formula.vertex` finds or makes the vertex of a literal;
* `Formula.insert` adds a clause;
* `Formula.insertSigned` adds a clause given by signed halves, and refuses a zero half before it
  touches anything.
-/

namespace TwoCnf

/-- Clauses, and the implications they amount to as a row of successors per vertex. -/
structure Formula where
  numbering : Numbering
  rows : Array Row
  clauses : Array Clause
  implications : Nat
  maxVar : UInt32

namespace Formula

/-- The formula without clauses. -/
def empty : Formula :=
  ⟨.empty, #[], #[], 0, 0⟩

instance instInhabited : Inhabited Formula :=
  ⟨empty⟩

/-- The vertex of a literal, which is made if the literal has none. -/
def vertex (f : Formula) (l : Lit) : UInt32 × Formula :=
  match f.numbering.id? l with
  | some id => (id, f)
  | none =>
      (UInt32.ofNat f.rows.size,
        { f with numbering := f.numbering.push l, rows := f.rows.push .empty })

/-- Adds a successor to a vertex. The vertex has to have a row: both vertices that an insertion links from
do, in every formula that insertions lead to (`exists_insert_eq`, `Built.indexed`). -/
def link (f : Formula) (source target : UInt32) : Formula :=
  { f with rows := f.rows.modify source.toNat (·.insert target) }

/-- Enters a clause into the list and the counters. -/
def record (f : Formula) (c : Clause) : Formula :=
  { f with
    clauses := f.clauses.push c
    implications := f.implications + 2
    maxVar := max (max f.maxVar c.left.var) c.right.var }

/-- Adds a clause: the vertices of its literals and their negations, two implications, and the clause
itself. -/
def insert (f : Formula) (c : Clause) : Formula :=
  let (a, f) := f.vertex c.left
  let (notA, f) := f.vertex c.left.neg
  let (b, f) := f.vertex c.right
  let (notB, f) := f.vertex c.right.neg
  ((f.link notA b).link notB a).record c

/-- Adds the clause of two signed halves and answers with it, or refuses them. Either way the formula
that is left comes back. -/
def insertSigned (f : Formula) (a b : Int32) : Except ZeroHalf Clause × Formula :=
  match Clause.ofSigned a b with
  | .ok c => (.ok c, f.insert c)
  | .error complaint => (.error complaint, f)

theorem insertSigned_eq_ok {f f' : Formula} {a b : Int32} {c : Clause} :
    f.insertSigned a b = (.ok c, f') ↔ Clause.ofSigned a b = .ok c ∧ f' = f.insert c := by
  unfold insertSigned
  cases Clause.ofSigned a b with
  | error complaint =>
      simp
  | ok d =>
      simp only [Prod.mk.injEq, Except.ok.injEq]
      constructor
      · rintro ⟨rfl, rfl⟩
        exact ⟨rfl, rfl⟩
      · rintro ⟨rfl, rfl⟩
        exact ⟨rfl, rfl⟩

/-- A refused call leaves the formula as it was. -/
theorem insertSigned_eq_error {f f' : Formula} {a b : Int32} {complaint : ZeroHalf} :
    f.insertSigned a b = (.error complaint, f') ↔
      Clause.ofSigned a b = .error complaint ∧ f' = f := by
  unfold insertSigned
  cases Clause.ofSigned a b with
  | error complaint' =>
      simp [eq_comm]
  | ok d =>
      simp

/-- Whether a literal has a vertex. -/
def contains (f : Formula) (l : Lit) : Bool :=
  (f.numbering.id? l).isSome

/-! ## Counters -/

/-- The sizes of a formula. -/
structure Counts where
  literals : Nat
  implications : Nat
  clauses : Nat
  maxVar : UInt32
  deriving DecidableEq, Repr

/-- How many literals have a vertex, how many implications were added (repeated ones included), how
many clauses there are, and the largest variable. -/
def counts (f : Formula) : Counts where
  literals := f.numbering.size
  implications := f.implications
  clauses := f.clauses.size
  maxVar := f.maxVar

end Formula
end TwoCnf
