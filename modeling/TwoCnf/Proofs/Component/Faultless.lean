import TwoCnf.Proofs.Component.Capacity
import TwoCnf.Proofs.Implication.Snapshot

/-!
# Faultless — a search comes to its end and asks for nothing that is not there

* `Search.Turns` — so many turns of the loop lead from one state to another. Each turn uses up work
  (`Search.Turns.add_work_le`), and the work of a whole search is told by the size of the graph
  (`Formula.Coherent.work_start`);
* `Search.Guarded` — the look-ups of a turn can be answered, and a root that is closed is on the stack;
* `Search.Faultless` — a search without a fault, from vertex to vertex and from state to state;
* `search_faultless` — so is the search of the graph after any calls, as long as there are numbers left.
-/

namespace TwoCnf

namespace Search

variable {g : Graph} {n : Nat} {s t : Search}

/-! ## Turns of the loop -/

/-- `n` turns of the loop lead from one state to another. -/
inductive Turns (g : Graph) : Nat → Search → Search → Prop where
  | none (s : Search) : Turns g 0 s s
  | more {n : Nat} {s t u : Search} {top : Frame} {rest : List Frame} :
      s.frames = top :: rest → s.step g top rest = .ok t → Turns g n t u → Turns g (n + 1) s u

namespace Turns

/-- Turns use up the work that is left. -/
theorem add_work_le (h : Turns g n s t) : n + t.work g ≤ s.work g := by
  induction h with
  | none s =>
      exact Nat.le_of_eq (Nat.zero_add _)
  | more hframes hstep _ ih =>
      have hlt := work_step_lt hframes hstep
      omega

/-- The loop that ends makes some number of turns. -/
theorem exists_of_run (h : s.run g = .ok t) : ∃ n, Turns g n s t := by
  -- the cases are those of the recursion of `run`
  induction s using Search.run.induct g with
  | case1 s hframes =>
      rw [run_of_nil hframes] at h
      cases h
      exact ⟨0, .none t⟩
  | case2 s top rest hframes fault herror =>
      rw [run_of_error hframes herror] at h
      cases h
  | case3 s top rest hframes s' hok _ ih =>
      rw [run_of_cons hframes hok] at h
      rcases ih h with ⟨n, hturns⟩
      exact ⟨n + 1, .more hframes hok hturns⟩

end Turns

/-- No state of the course has more work left than there was at the start. -/
theorem Course.work_le {later : List UInt32} (h : Course g later s) :
    s.work g ≤ (Search.start g).work g := by
  induction h with
  | start =>
      exact Nat.le_refl _
  | skip _ _ _ _ ih =>
      exact ih
  | enter _ _ hmark henter ih =>
      exact Nat.le_trans (Nat.le_of_lt (work_enter_lt hmark henter)) ih
  | step _ hframes hstep ih =>
      exact Nat.le_trans (Nat.le_of_lt (work_step_lt hframes hstep)) ih

end Search

/-! ## The work of a whole search -/

namespace Formula

/-- The degree of a vertex is the length of its row. -/
theorem degree_graph {f : Formula} {v : UInt32} {row : Row} (h : f.rows[v.toNat]? = some row) :
    f.graph.degree v = row.ids.size := by
  rcases (layout_graph f).row v.toNat row (by rw [Array.getElem?_toList]; exact h) with
    ⟨start, hstart, hstop, hle, _⟩
  have hspan := Graph.span_eq_ok.2 ⟨hstart, hstop, Nat.le_add_right _ _, hle⟩
  rw [Graph.degree, hspan]
  exact Nat.add_sub_cancel_left _ _

/-- The first vertices cause a turn for each of their edges, and each of them one turn to enter it and one to
leave it. -/
theorem Coherent.sumBelow_start {f : Formula} (hf : f.Coherent)
    (hsize : f.numbering.size < UInt32.size) {n : Nat} (hn : n ≤ f.rows.size) :
    Search.sumBelow (Search.unseenWork f.graph (Search.start f.graph).marks) n =
      (f.targetsBefore n).length + 2 * n := by
  have hrows : f.rows.size = f.graph.numVertices := hf.indexed.rows_size
  induction n with
  | zero =>
      rfl
  | succ n ih =>
      have hrow : f.rows[n]? = some f.rows[n] := Array.getElem?_eq_getElem hn
      have hexact : (UInt32.ofNat n).toNat = n := by
        apply UInt32.toNat_ofNat_of_lt'
        rw [hrows] at hn
        exact Nat.lt_trans hn hsize
      have hdegree : f.graph.degree (UInt32.ofNat n) = f.rows[n].ids.size := by
        apply degree_graph
        rw [hexact]
        exact hrow
      have hunseen : (Search.start f.graph).marks[n]? = some .unseen := by
        unfold Search.start
        rw [Array.getElem?_replicate, if_pos (by omega)]
      rw [Search.sumBelow, ih (Nat.le_of_succ_le hn), Search.unseenWork, if_pos hunseen, hdegree,
        targetsBefore_succ hrow, List.length_append]
      have hlength : f.rows[n].ids.toList.length = f.rows[n].ids.size := Array.length_toList
      omega

/-- Entering and leaving each vertex, and passing each edge. -/
theorem Coherent.work_start {f : Formula} (hf : f.Coherent) (hsize : f.numbering.size < UInt32.size) :
    (Search.start f.graph).work f.graph = f.graph.numEdges + 2 * f.graph.numVertices := by
  have hrows : f.rows.size = f.graph.numVertices := hf.indexed.rows_size
  have hmarks : (Search.start f.graph).marks.size = f.rows.size := by
    rw [hrows]
    exact Array.size_replicate
  have htargets : (f.targetsBefore f.rows.size).length = f.graph.numEdges := by
    rw [targetsBefore_size, Array.length_toList]
    rfl
  unfold Search.work
  rw [hmarks, hf.sumBelow_start hsize (Nat.le_refl _), htargets, hrows]
  rfl

/-- The vertices come in pairs, so that two numbers are left if one is. -/
theorem Built.room {f : Formula} (hf : f.Built) (hsize : f.numbering.size < UInt32.size) :
    f.numbering.size + 2 ≤ UInt32.size := by
  have hpairs := hf.size_eq (mem_varsOfClauses f)
  have hnumbers : UInt32.size = 4294967296 := rfl
  omega

end Formula

/-! ## Look-ups -/

namespace Search

variable {g : Graph} {s : Search}

/-- What a turn looks up is there. There is a mark for every vertex. A vertex whose row is being read has a
mark, its row starts and ends inside the targets, and the successor that is looked at has a mark; a vertex on
the stack has a mark and a literal. So no turn fails. A turn that closes a component pops the stack down to
the root, which is on it. -/
structure Guarded (g : Graph) (s : Search) : Prop where
  marks_size : s.marks.size = g.numVertices
  frame_lt : ∀ f ∈ s.frames, f.vertex.toNat < s.marks.size
  row : ∀ f ∈ s.frames, ∃ start stop, g.offsets[f.vertex.toNat]? = some start ∧
    g.offsets[f.vertex.toNat + 1]? = some stop ∧ start ≤ stop ∧ stop ≤ g.targets.size
  successor_lt : ∀ f ∈ s.frames, ∀ w, g.successorAt f.vertex f.place = .ok (some w) →
    w.toNat < s.marks.size
  stack_lt : ∀ v ∈ s.stack, v.toNat < s.marks.size
  lit : ∀ v ∈ s.stack, ∃ l, g.lit v = .ok l
  turn : ∀ top rest, s.frames = top :: rest → ∃ t, s.step g top rest = .ok t
  root : ∀ top rest index, s.frames = top :: rest →
    g.successorAt top.vertex top.place = .ok none → s.mark top.vertex = .ok (.active index index) →
    ∃ pre post t, s.stack = pre ++ top.vertex :: post ∧
      above top.vertex s.stack = pre ++ [top.vertex] ∧ below top.vertex s.stack = post ∧
      (s.withFrames rest).close g top.vertex = .ok t ∧ s.step g top rest = .ok t ∧ t.stack = post

/-- Past the end of its row, a vertex whose `low` is its own index is closed. -/
theorem step_of_root {top : Frame} {rest : List Frame} {index : UInt32}
    (hnone : g.successorAt top.vertex top.place = .ok none)
    (hmark : s.mark top.vertex = .ok (.active index index)) :
    s.step g top rest = (s.withFrames rest).close g top.vertex := by
  have hmark' : (s.withFrames rest).mark top.vertex = .ok (.active index index) := hmark
  unfold step
  rw [hnone]
  show (s.withFrames rest).leave g top.vertex = _
  unfold leave
  rw [hmark']
  exact if_pos rfl

theorem Shape.guarded (hs : s.Shape g) (hg : g.WellFormed) : s.Guarded g := by
  have hsize := hs.size_eq
  have hframe : ∀ f ∈ s.frames, f.vertex.toNat < g.numVertices := by
    intro f hf
    exact hs.stack_lt (hs.frame_mem_stack hf)
  refine
    { marks_size := hsize
      frame_lt := ?_
      row := ?_
      successor_lt := ?_
      stack_lt := ?_
      lit := fun v hv => ⟨_, Graph.lit_eq_name (hs.stack_lt hv)⟩
      turn := ?_
      root := ?_ }
  · intro f hf
    rw [hsize]
    exact hframe f hf
  · intro f hf
    rcases hg.successors_ok f.vertex (hframe f hf) with ⟨ws, hws⟩
    rcases Graph.successors_eq_ok.1 hws with ⟨start, stop, hspan, _⟩
    exact ⟨start, stop, Graph.span_eq_ok.1 hspan⟩
  · intro f hf w hw
    rw [hsize]
    exact hg.target_lt f.vertex w ((hg.edge_iff (hframe f hf)).2 ⟨f.place, hw⟩)
  · intro v hv
    rw [hsize]
    exact hs.stack_lt hv
  · intro top rest hframes
    rcases exists_step hg hs hframes with ⟨t, hstep, _⟩
    exact ⟨t, hstep⟩
  · intro top rest index hframes hnone hmark
    rcases List.append_of_mem (hs.top_mem_stack hframes) with ⟨pre, post, hstack⟩
    have hroot : top.vertex ∉ pre := by
      have hnodup := hs.nodup
      rw [hstack, List.nodup_append] at hnodup
      intro hmem
      exact hnodup.2.2 top.vertex hmem top.vertex List.mem_cons_self rfl
    rcases exists_close hs hstack rest with ⟨t, hclose, h⟩
    refine ⟨pre, post, t, hstack, ?_, ?_, hclose, ?_, h.stack_eq⟩
    · rw [hstack, above_append hroot]
    · rw [hstack, below_append hroot]
    · rw [step_of_root hnone hmark, hclose]

/-! ## The whole search -/

/-- A search of `g` without a fault. It finds its components. Vertex by vertex in order, what has been
searched so far leaves a state from which the next vertex is searched, and afterwards there is neither a
frame nor a vertex on the stack; if the vertex was unseen, it is entered, and the loop then makes at most as
many turns as there are edges and twice as many as there are vertices. In every state on the way, what a turn
looks up is there, and no counter wraps around. -/
structure Faultless (g : Graph) : Prop where
  found : ∃ p, g.partition = .ok p
  visit : ∀ before v after, g.vertices = before ++ v :: after →
    ∃ s u, before.foldlM (Search.visit g) (start g) = .ok s ∧ s.visit g v = .ok u ∧
      u.frames = [] ∧ u.stack = [] ∧
      (s.mark v = .ok .unseen → ∃ n t, s.enter v = .ok t ∧ Turns g n t u ∧
        n ≤ g.numEdges + 2 * g.numVertices)
  course : ∀ later s, Course g later s → s.Guarded g ∧ s.Unwrapped g

theorem Course.exists_visit {v : UInt32} {later : List UInt32} (h : Course g (v :: later) s)
    (hg : g.WellFormed) (hframes : s.frames = []) (hv : v.toNat < g.numVertices) :
    ∃ u, s.visit g v = .ok u ∧ u.frames = [] ∧ u.stack = [] ∧
      (s.mark v = .ok .unseen → ∃ n t, s.enter v = .ok t ∧ Turns g n t u ∧
        n ≤ (Search.start g).work g) := by
  rcases Search.exists_visit hg (h.invariant hg) hframes hv with ⟨u, hvisit, hi, hempty, _, _⟩
  refine ⟨u, hvisit, hempty, stack_eq_nil hi hempty, ?_⟩
  intro hmark
  rcases bind_eq_ok.1 hvisit with ⟨m, hm, hsearch⟩
  cases hm.symm.trans hmark
  rcases bind_eq_ok.1 hsearch with ⟨t, henter, hrun⟩
  rcases Turns.exists_of_run hrun with ⟨n, hturns⟩
  have hwork := hturns.add_work_le
  have hstart := (h.enter hframes hmark henter).work_le
  exact ⟨n, t, henter, hturns, by omega⟩

/-- Searching from the first vertices leaves a state of the course. -/
theorem exists_front (hg : g.WellFormed) {before later : List UInt32}
    (hvertices : g.vertices = before ++ later) :
    ∃ s, before.foldlM (Search.visit g) (start g) = .ok s ∧ Course g later s ∧ s.frames = [] := by
  have hlt : ∀ v ∈ before, v.toNat < g.numVertices := by
    intro v hv
    refine (Graph.mem_vertices hg.size_lt v).1 ?_
    rw [hvertices]
    exact List.mem_append_left _ hv
  rcases exists_visits hg (Course.start.invariant hg) rfl hlt with ⟨s, hvisits, _⟩
  exact ⟨s, hvisits, Course.of_front hvertices hvisits⟩

end Search

/-- The search of the graph after any calls, accepted or refused, with fewer than `4294967296` vertices
comes to its end without a fault. -/
theorem search_faultless (calls : List (Int32 × Int32))
    (hsize : (Formula.collect calls).graph.numVertices < UInt32.size) :
    Search.Faultless (Formula.collect calls).graph := by
  have hbuilt := (Formula.built_collect calls).1
  have hf := hbuilt.coherent hsize
  have hg := hf.wellFormed_graph hsize
  refine ⟨?_, ?_, ?_⟩
  · rcases hg.exists_partition with ⟨p, hp, _⟩
    exact ⟨p, hp⟩
  · intro before v after hvertices
    rcases Search.exists_front hg hvertices with ⟨s, hvisits, hcourse, hframes⟩
    have hv : v.toNat < (Formula.collect calls).graph.numVertices := by
      refine (Graph.mem_vertices hg.size_lt v).1 ?_
      rw [hvertices]
      exact List.mem_append_right _ List.mem_cons_self
    rcases hcourse.exists_visit hg hframes hv with ⟨u, hvisit, hempty, hstack, hturns⟩
    rw [hf.work_start hsize] at hturns
    exact ⟨s, u, hvisits, hvisit, hempty, hstack, hturns⟩
  · intro later s hcourse
    have hshape := (hcourse.invariant hg).shape
    exact ⟨hshape.guarded hg, hshape.unwrapped (hbuilt.room hsize)⟩

/-- Two variables imply each other and a third one, and a call is refused. There are six vertices and six
edges, and the search from the first vertex ends within eighteen turns. -/
theorem search_faultless_cycle :
    (Formula.collect [(1, -2), (2, -1), (0, 5), (-1, 3)]).graph.numVertices < UInt32.size ∧
    ∃ n t u, (Search.start (Formula.collect [(1, -2), (2, -1), (0, 5), (-1, 3)]).graph).enter 0 = .ok t ∧
      Search.Turns (Formula.collect [(1, -2), (2, -1), (0, 5), (-1, 3)]).graph n t u ∧ n ≤ 18 ∧
      u.frames = [] ∧ u.stack = [] := by
  have hsize : (Formula.collect [(1, -2), (2, -1), (0, 5), (-1, 3)]).graph.numVertices < UInt32.size := by
    decide +kernel
  have hvertices : (Formula.collect [(1, -2), (2, -1), (0, 5), (-1, 3)]).graph.vertices =
      [] ++ 0 :: [1, 2, 3, 4, 5] := by
    decide +kernel
  have hunseen : (Search.start (Formula.collect [(1, -2), (2, -1), (0, 5), (-1, 3)]).graph).mark 0 =
      .ok .unseen := by
    decide +kernel
  have hcount : (Formula.collect [(1, -2), (2, -1), (0, 5), (-1, 3)]).graph.numEdges +
      2 * (Formula.collect [(1, -2), (2, -1), (0, 5), (-1, 3)]).graph.numVertices = 18 := by
    decide +kernel
  rcases (search_faultless _ hsize).visit [] 0 _ hvertices with ⟨s, u, hs, _, hframes, hstack, hturns⟩
  -- nothing has been searched before the first vertex
  cases hs
  rcases hturns hunseen with ⟨n, t, henter, hturns, hle⟩
  rw [hcount] at hle
  exact ⟨hsize, n, t, u, henter, hturns, hle, hframes, hstack⟩

end TwoCnf
