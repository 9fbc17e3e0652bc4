import Mathlib.Data.FinEnum
import TwoCnf.Component.Partition
import TwoCnf.Proofs.Implication.Reachability

/-!
# Descent — strongly connected components by recursion

The search for components in its recursive form, which says what is computed without saying how far each
vertex has been read. It keeps a discovery index, a `low` and a flag per vertex, and counts without a
bound.

* `Descent.visit` enters a vertex, follows its successors and then leaves it;
* `Descent.follow` goes through successors in order. It visits one that is unvisited, and in any case
  learns from one that is on the stack afterwards;
* `Descent.leave` closes the component of a vertex whose `low` is its own index, by popping the stack one
  vertex at a time;
* `Graph.partitionByDescent` visits the vertices in order.

The recursion ends because entering lowers `Descent.unvisited`, and nothing raises it: what `visit` and
`follow` return comes with a proof that it `Extends` what they were given.
-/

namespace TwoCnf

/-! ## The state of the recursion -/

/-- A recursive search in progress. A vertex without an index is unvisited; `stack` has its newest entry
in front, and `next` is the next index. -/
structure Descent where
  index : UInt32 → Option Nat
  low : UInt32 → Nat
  onStack : UInt32 → Bool
  stack : List UInt32
  next : Nat
  found : Partition

namespace Descent

/-- No vertex has been visited. -/
def start : Descent :=
  ⟨fun _ => none, fun _ => 0, fun _ => false, [], 0, .empty⟩

/-- Gives a vertex the next index, which is also its first `low`, and puts it on the stack. -/
def enter (d : Descent) (v : UInt32) : Descent :=
  { d with
    index := Function.update d.index v (some d.next)
    low := Function.update d.low v d.next
    onStack := Function.update d.onStack v true
    stack := v :: d.stack
    next := d.next + 1 }

/-- What `v` learns from its successor `w`: the `low` of `w`, if `w` is on the stack. -/
def learn (d : Descent) (v w : UInt32) : Descent :=
  if d.onStack w then { d with low := Function.update d.low v (min (d.low v) (d.low w)) } else d

/-- Takes the vertex `v` off the stack, of which `rest` is left, and gives its literal the number of the
component that is being closed. -/
def pop (g : Graph) (d : Descent) (v : UInt32) (rest : List UInt32) : Descent :=
  { d with
    onStack := Function.update d.onStack v false
    stack := rest
    found :=
      { d.found with byLit := d.found.byLit.insert (g.name v) (UInt32.ofNat d.found.components.size) } }

/-- Lists the literals of the component that is being closed. -/
def record (d : Descent) (members : List Lit) : Descent :=
  { d with found := { d.found with components := d.found.components.push members } }

/-- Pops the stack down to a root. `members` are the literals popped so far. -/
def popThrough (g : Graph) (root : UInt32) (d : Descent) (members : List Lit) :
    List UInt32 → Descent
  | [] => d.record members
  | v :: rest =>
      if v = root then (d.pop g v rest).record (members ++ [g.name v])
      else popThrough g root (d.pop g v rest) (members ++ [g.name v]) rest

/-- Leaves a vertex whose successors have been followed, and closes its component if it is a root. -/
def leave (g : Graph) (d : Descent) (v : UInt32) : Descent :=
  if d.index v = some (d.low v) then d.popThrough g v [] d.stack else d

/-! ## What is visited stays visited -/

/-- What `d` has visited, `d'` has visited. -/
def Extends (d d' : Descent) : Prop :=
  ∀ v, d'.index v = none → d.index v = none

theorem Extends.refl (d : Descent) : d.Extends d :=
  fun _ h => h

theorem Extends.trans {d d' d'' : Descent} (h : d.Extends d') (h' : d'.Extends d'') :
    d.Extends d'' :=
  fun v hv => h v (h' v hv)

theorem extends_of_index {d d' : Descent} (h : d'.index = d.index) : d.Extends d' := by
  intro v hv
  rw [← h]
  exact hv

theorem extends_enter (d : Descent) (v : UInt32) : d.Extends (d.enter v) := by
  intro u hu
  by_cases huv : u = v
  · simp [enter, huv] at hu
  · simpa [enter, huv] using hu

@[simp] theorem index_learn (d : Descent) (v w : UInt32) : (d.learn v w).index = d.index := by
  unfold learn
  split <;> rfl

@[simp] theorem onStack_learn (d : Descent) (v w : UInt32) : (d.learn v w).onStack = d.onStack := by
  unfold learn
  split <;> rfl

@[simp] theorem stack_learn (d : Descent) (v w : UInt32) : (d.learn v w).stack = d.stack := by
  unfold learn
  split <;> rfl

@[simp] theorem next_learn (d : Descent) (v w : UInt32) : (d.learn v w).next = d.next := by
  unfold learn
  split <;> rfl

@[simp] theorem found_learn (d : Descent) (v w : UInt32) : (d.learn v w).found = d.found := by
  unfold learn
  split <;> rfl

theorem low_learn (d : Descent) (v w : UInt32) :
    (d.learn v w).low v = if d.onStack w then min (d.low v) (d.low w) else d.low v := by
  unfold learn
  split
  · exact Function.update_self ..
  · rfl

theorem low_learn_of_ne (d : Descent) {u v : UInt32} (w : UInt32) (h : u ≠ v) :
    (d.learn v w).low u = d.low u := by
  unfold learn
  split
  · exact Function.update_of_ne h ..
  · rfl

theorem index_popThrough (g : Graph) (root : UInt32) (d : Descent) (members : List Lit)
    (stack : List UInt32) : (d.popThrough g root members stack).index = d.index := by
  induction stack generalizing d members with
  | nil =>
      rfl
  | cons v rest ih =>
      unfold popThrough
      split
      · rfl
      · rw [ih]
        rfl

@[simp] theorem index_leave (g : Graph) (d : Descent) (v : UInt32) :
    (d.leave g v).index = d.index := by
  unfold leave
  split
  · exact index_popThrough g v d [] d.stack
  · rfl

/-- How many vertices are unvisited. -/
def unvisited (d : Descent) : Nat :=
  (Finset.univ.filter fun v => d.index v = none).card

theorem Extends.unvisited_le {d d' : Descent} (h : d.Extends d') : d'.unvisited ≤ d.unvisited := by
  apply Finset.card_le_card
  intro v hv
  simp only [Finset.mem_filter, Finset.mem_univ, true_and] at hv ⊢
  exact h v hv

theorem unvisited_enter_lt {d : Descent} {v : UInt32} (hv : d.index v = none) :
    (d.enter v).unvisited < d.unvisited := by
  apply Finset.card_lt_card
  refine (Finset.ssubset_iff_of_subset ?_).2 ⟨v, ?_, ?_⟩
  · intro u hu
    simp only [Finset.mem_filter, Finset.mem_univ, true_and] at hu ⊢
    exact extends_enter d v u hu
  · simpa only [Finset.mem_filter, Finset.mem_univ, true_and] using hv
  · simp only [Finset.mem_filter, Finset.mem_univ, true_and]
    simp [enter]

/-! ## The recursion -/

mutual

/-- Visits an unvisited vertex. -/
def visit (g : Graph) (d : Descent) (v : UInt32) (hv : d.index v = none) :
    { d' : Descent // d.Extends d' } :=
  have : (d.enter v).unvisited < d.unvisited := unvisited_enter_lt hv
  let inner := follow g (d.enter v) v (g.row v)
  ⟨inner.1.leave g v,
    ((extends_enter d v).trans inner.2).trans (extends_of_index (index_leave g inner.1 v))⟩
termination_by (d.unvisited, 0)
decreasing_by exact Prod.Lex.left _ _ this

/-- Follows successors of `v` in order. -/
def follow (g : Graph) (d : Descent) (v : UInt32) :
    (ws : List UInt32) → { d' : Descent // d.Extends d' }
  | [] => ⟨d, .refl d⟩
  | w :: ws =>
      let inner : { d' : Descent // d.Extends d' } :=
        if hw : d.index w = none then visit g d w hw else ⟨d, .refl d⟩
      let rest := follow g (inner.1.learn v w) v ws
      ⟨rest.1, (inner.2.trans (extends_of_index (index_learn inner.1 v w))).trans rest.2⟩
termination_by ws => (d.unvisited, ws.length + 1)
decreasing_by
  · exact Prod.Lex.right _ (Nat.succ_pos _)
  · have hle : (inner.1.learn v w).unvisited ≤ d.unvisited :=
      (inner.2.trans (extends_of_index (index_learn inner.1 v w))).unvisited_le
    rcases Nat.lt_or_eq_of_le hle with hlt | heq
    · exact Prod.Lex.left _ _ hlt
    · rw [heq]
      exact Prod.Lex.right _ (Nat.lt_succ_self _)

end

/-- Visits a vertex unless it has been visited. -/
def reach (g : Graph) (d : Descent) (v : UInt32) : Descent :=
  if hv : d.index v = none then (visit g d v hv).1 else d

theorem visit_eq (g : Graph) (d : Descent) (v : UInt32) (hv : d.index v = none) :
    (visit g d v hv).1 = (follow g (d.enter v) v (g.row v)).1.leave g v := by
  rw [visit]

theorem follow_nil (g : Graph) (d : Descent) (v : UInt32) : (follow g d v []).1 = d := by
  rw [follow]

theorem follow_cons (g : Graph) (d : Descent) (v w : UInt32) (ws : List UInt32) :
    (follow g d v (w :: ws)).1 = (follow g ((d.reach g w).learn v w) v ws).1 := by
  have hreach : (if hw : d.index w = none then visit g d w hw else ⟨d, .refl d⟩).1 =
      d.reach g w := by
    unfold reach
    split <;> rfl
  rw [follow, ← hreach]

theorem extends_reach (g : Graph) (d : Descent) (v : UInt32) : d.Extends (d.reach g v) := by
  unfold reach
  split
  · exact (visit g d v _).2
  · exact .refl d

/-- A vertex that has been reached is visited. -/
theorem index_reach (g : Graph) (d : Descent) (v : UInt32) : (d.reach g v).index v ≠ none := by
  unfold reach
  split
  · rw [visit_eq, index_leave]
    intro hnone
    have hinner := (follow g (d.enter v) v (g.row v)).2 v hnone
    simp [enter] at hinner
  · assumption

end Descent

/-- The components that the recursion finds from the vertices in order. -/
def Graph.partitionByDescent (g : Graph) : Partition :=
  (((List.range g.numVertices).map UInt32.ofNat).foldl (Descent.reach g) .start).found

end TwoCnf
