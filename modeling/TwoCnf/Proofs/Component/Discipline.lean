import TwoCnf.Proofs.Component.Course
import TwoCnf.Proofs.Formula.Bookkeeping

/-!
# Discipline — the stack and the frames at every turn of the loop

What a search keeps is told here by what can be looked up in it: the marks, the stack, the frames and the
components closed so far.

* `Search.Closed` — the literal of a vertex is listed by a component that has been closed;
* `Search.Disciplined` — marks, stack and frames agree, each `low` is the index of a vertex within reach, and
  no edge leads out of the closed components;
* `Search.Invariant.disciplined` — the invariant of a search says so;
* `stack_disciplined` — so it is in every state of the search of the graph after any calls.
-/

namespace TwoCnf

namespace Search

variable {g : Graph} {s : Search} {v : UInt32}

/-- The literal of `v` is listed by a component that has been closed. -/
def Closed (g : Graph) (s : Search) (v : UInt32) : Prop :=
  ∃ l i lits, g.lit v = .ok l ∧ s.found.component i = .ok lits ∧ l ∈ lits

/-- The stack holds the active vertices, each once and by rising index from its bottom to its top. The frames
lie on it, and each looks at an edge to the vertex of the next one. The `low` of a vertex on the stack is at
most its index, and it is the index of a vertex on the stack within its reach; some frame of no larger index
is within its reach as well. An edge out of a closed component leads to a closed component. -/
structure Disciplined (g : Graph) (s : Search) : Prop where
  active_iff : ∀ v, (∃ index low, s.mark v = .ok (.active index low)) ↔ v ∈ s.stack
  nodup : s.stack.Nodup
  ascending : s.stack.reverse.Pairwise fun u v => s.index u < s.index v
  frames_sublist : (s.frames.map Frame.vertex).Sublist s.stack
  path : s.frames.reverse.IsChain fun f next =>
    g.successorAt f.vertex f.place = .ok (some next.vertex) ∧ g.Edge f.vertex next.vertex
  low_le : ∀ v ∈ s.stack, s.low v ≤ s.index v
  low_reaches : ∀ v ∈ s.stack, ∃ w ∈ s.stack, s.index w = s.low v ∧ g.Reaches v w
  reaches_frame : ∀ v ∈ s.stack, ∃ f ∈ s.frames, s.index f.vertex ≤ s.index v ∧
    g.Reaches v f.vertex
  closed : ∀ u v, g.Edge u v → s.Closed g u → s.Closed g v

theorem mark_eq_active_iff {index low : UInt32} :
    s.mark v = .ok (.active index low) ↔ s.markOf v = .active index low := by
  constructor
  · intro h
    rw [markOf, entry_eq_ok.1 h]
    rfl
  · intro h
    rw [← h]
    exact mark_eq (lt_size_of_markOf (by rw [h]; simp))

namespace Invariant

/-- A vertex is settled when its component is closed. -/
theorem closed_iff (hi : s.Invariant g) : s.Closed g v ↔ s.markOf v = .settled := by
  have hr := hi.records
  have hnumber := hr.tidy.componentOf?_eq_some
  constructor
  · rintro ⟨l, i, lits, hl, hlits, hmem⟩
    rcases Graph.name_of_lit hl with ⟨hv, rfl⟩
    exact (hr.settled_iff v hv).2 ⟨i, (hnumber _ i).2 ⟨lits, hlits, hmem⟩⟩
  · intro hsettled
    have hv := hi.shape.lt_numVertices (v := v) (by rw [hsettled]; simp)
    rcases (hr.settled_iff v hv).1 hsettled with ⟨i, hi⟩
    rcases (hnumber _ i).1 hi with ⟨lits, hlits, hmem⟩
    exact ⟨g.name v, i, lits, Graph.lit_eq_name hv, hlits, hmem⟩

theorem disciplined (hi : s.Invariant g) (hg : g.WellFormed) : s.Disciplined g := by
  have hs := hi.shape
  have hl := hi.lowlinks
  refine
    { active_iff := ?_
      nodup := hs.nodup
      ascending := List.pairwise_reverse.2 hs.sorted
      frames_sublist := hs.frames_sublist
      path := ?_
      low_le := hl.low_le
      low_reaches := hl.low_reaches
      reaches_frame := hl.reaches_frame
      closed := ?_ }
  · intro v
    rw [hs.mem_stack_iff]
    simp only [mark_eq_active_iff]
  · rw [List.isChain_reverse]
    refine hs.path.imp_of_mem_imp ?_
    intro next f _ hf hsucc
    have hlt := hs.stack_lt (hs.frame_mem_stack hf)
    exact ⟨hsucc, (hg.edge_iff hlt).2 ⟨f.place, hsucc⟩⟩
  · intro u v hedge hu
    rw [hi.closed_iff] at hu ⊢
    exact hl.closed u hu v hedge

end Invariant
end Search

/-- In every state that the search of the graph after any calls, accepted or refused, with fewer than
`4294967296` vertices passes through, marks, stack, frames and components keep to each other, and the search
comes to its end. -/
theorem stack_disciplined (calls : List (Int32 × Int32))
    (hsize : (Formula.collect calls).graph.numVertices < UInt32.size) :
    (∀ later s, Search.Course (Formula.collect calls).graph later s →
      s.Disciplined (Formula.collect calls).graph) ∧
    ∃ last, Search.Ends (Formula.collect calls).graph last ∧
      (Formula.collect calls).graph.partition = .ok last.found := by
  have hbuilt := (Formula.built_collect calls).1
  have hg := (hbuilt.coherent hsize).wellFormed_graph hsize
  constructor
  · intro later s hcourse
    exact (hcourse.invariant hg).disciplined hg
  · rcases hg.exists_partition with ⟨p, hp, _⟩
    rcases Search.exists_ends hp with ⟨last, hlast, rfl⟩
    exact ⟨last, hlast, hp⟩

/-- The search enters `1` and from there `3`, which `1` implies, so that both are on the stack. -/
theorem stack_disciplined_implied :
    (Formula.collect [(1, -2), (-1, 3)]).graph.numVertices < UInt32.size ∧
    ∃ later s, Search.Course (Formula.collect [(1, -2), (-1, 3)]).graph later s ∧
      s.stack = [4, 0] ∧ s.Disciplined (Formula.collect [(1, -2), (-1, 3)]).graph := by
  have hsize : (Formula.collect [(1, -2), (-1, 3)]).graph.numVertices < UInt32.size := by
    decide +kernel
  have hvertices : (Formula.collect [(1, -2), (-1, 3)]).graph.vertices = [0, 1, 2, 3, 4, 5] := by
    decide +kernel
  have hunseen : (Search.start (Formula.collect [(1, -2), (-1, 3)]).graph).mark 0 = .ok .unseen := by
    decide +kernel
  -- the first vertex is entered, and one turn enters its only successor
  have hturn : (do
      let t ← (Search.start (Formula.collect [(1, -2), (-1, 3)]).graph).enter 0
      let u ← t.step (Formula.collect [(1, -2), (-1, 3)]).graph ⟨0, 0⟩ []
      return (t.frames, u.stack)) = Except.ok ([⟨0, 0⟩], [4, 0]) := by
    decide +kernel
  rcases bind_eq_ok.1 hturn with ⟨t, henter, hturn⟩
  rcases bind_eq_ok.1 hturn with ⟨u, hstep, hturn⟩
  rcases Prod.mk.inj (Except.ok.inj hturn) with ⟨hframes, hstack⟩
  have hstart := Search.Course.start (g := (Formula.collect [(1, -2), (-1, 3)]).graph)
  rw [hvertices] at hstart
  have hcourse := (hstart.enter rfl hunseen henter).step hframes hstep
  exact ⟨hsize, [1, 2, 3, 4, 5], u, hcourse, hstack, (stack_disciplined _ hsize).1 _ u hcourse⟩

end TwoCnf
