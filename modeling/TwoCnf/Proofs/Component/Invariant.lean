import Mathlib.Data.List.Chain
import Mathlib.Data.List.Nodup
import TwoCnf.Component.Search
import TwoCnf.Proofs.Component.Partition
import TwoCnf.Proofs.Implication.Reachability

/-!
# Invariant — what holds between two steps of a search

The invariant of a search comes in three parts.

* `Search.Shape` ties the marks, the stack and the frames together: the stack holds the active vertices
  by falling discovery index, and the frames lie on the stack along a path of the graph;
* `Search.Lowlinks` says what the stack knows of reachability. The clause `escape` is the heart of it: an
  edge that has been looked at cannot lead below a frame unnoticed, since some vertex that still has to
  report to that frame carries a `low` as small as the index it leads to;
* `Search.Records` says that the closed components are strongly connected components, and that no edge
  leads to a component closed later.
-/

namespace TwoCnf

namespace Mark

def index : Mark → Nat
  | .active index _ => index.toNat
  | _ => 0

def low : Mark → Nat
  | .active _ low => low.toNat
  | _ => 0

end Mark

namespace Search

/-! ## Reading a search -/

/-- The mark of a vertex; numbers that are no vertices count as unseen. -/
def markOf (s : Search) (v : UInt32) : Mark :=
  (s.marks[v.toNat]?).getD .unseen

def index (s : Search) (v : UInt32) : Nat :=
  (s.markOf v).index

def low (s : Search) (v : UInt32) : Nat :=
  (s.markOf v).low

/-- The edge from `u` to `v` has been passed. -/
def Examined (g : Graph) (s : Search) (u v : UInt32) : Prop :=
  ∃ place, g.successorAt u place = .ok (some v) ∧
    ∀ f ∈ s.frames, f.vertex = u → place < f.place

/-- The row of `v` is being read. -/
def OnPath (s : Search) (v : UInt32) : Prop :=
  ∃ f ∈ s.frames, f.vertex = v

/-- The top frame looks at an edge to `v`. -/
def Awaited (g : Graph) (s : Search) (v : UInt32) : Prop :=
  ∃ top rest, s.frames = top :: rest ∧ g.successorAt top.vertex top.place = .ok (some v)

theorem mark_eq {s : Search} {v : UInt32} (h : v.toNat < s.marks.size) :
    s.mark v = .ok (s.markOf v) := by
  unfold mark markOf
  rw [entry_eq_ok, Array.getElem?_eq_getElem h]
  rfl

theorem lt_size_of_markOf {s : Search} {v : UInt32} (h : s.markOf v ≠ .unseen) :
    v.toNat < s.marks.size := by
  by_contra hge
  have hnone : s.marks[v.toNat]? = none := Array.getElem?_eq_none_iff.2 (by omega)
  exact h (by rw [markOf, hnone]; rfl)

theorem markOf_set {s s' : Search} {v : UInt32} {m : Mark} (hv : v.toNat < s.marks.size)
    (h : s'.marks = s.marks.setIfInBounds v.toNat m) (u : UInt32) :
    s'.markOf u = if u = v then m else s.markOf u := by
  unfold markOf
  rw [h, Array.getElem?_setIfInBounds]
  by_cases huv : u = v
  · subst huv
    simp [hv]
  · have hne : v.toNat ≠ u.toNat := by
      intro heq
      exact huv (UInt32.toNat_inj.1 heq).symm
    rw [if_neg hne, if_neg huv]

theorem index_eq_of_markOf {s s' : Search} {v : UInt32} (h : s'.markOf v = s.markOf v) :
    s'.index v = s.index v := by
  rw [index, index, h]

theorem low_eq_of_markOf {s s' : Search} {v : UInt32} (h : s'.markOf v = s.markOf v) :
    s'.low v = s.low v := by
  rw [low, low, h]

/-- More frames, or frames further ahead of `u`, examine no more edges of `u`. -/
theorem Examined.of_frames {g : Graph} {s s' : Search} {u v : UInt32}
    (hframes : ∀ f ∈ s.frames, f.vertex = u → ∃ f' ∈ s'.frames, f'.vertex = u ∧ f'.place ≤ f.place)
    (h : s'.Examined g u v) : s.Examined g u v := by
  rcases h with ⟨place, hplace, hbefore⟩
  refine ⟨place, hplace, ?_⟩
  intro f hf hfu
  rcases hframes f hf hfu with ⟨f', hf', hfu', hle⟩
  exact Nat.lt_of_lt_of_le (hbefore f' hf' hfu') hle

theorem Examined.edge {g : Graph} (hg : g.WellFormed) {s : Search} {u v : UInt32}
    (hu : u.toNat < g.numVertices) (h : s.Examined g u v) : g.Edge u v := by
  rcases h with ⟨place, hplace, _⟩
  exact (hg.edge_iff hu).2 ⟨place, hplace⟩

theorem top_mem {s : Search} {top : Frame} {rest : List Frame} (h : s.frames = top :: rest) :
    top ∈ s.frames := by
  rw [h]
  exact List.mem_cons_self

theorem mem_of_mem_rest {s : Search} {top f : Frame} {rest : List Frame}
    (h : s.frames = top :: rest) (hf : f ∈ rest) : f ∈ s.frames := by
  rw [h]
  exact List.mem_cons_of_mem top hf

/-! ## The invariant -/

/-- How marks, stack and frames hang together, and how many of each there can be. -/
structure Shape (g : Graph) (s : Search) : Prop where
  size_eq : s.marks.size = g.numVertices
  count : s.next.toNat + s.marks.count .unseen = s.marks.size
  mem_stack_iff : ∀ v, v ∈ s.stack ↔ ∃ index low, s.markOf v = .active index low
  index_lt : ∀ v ∈ s.stack, s.index v < s.next.toNat
  sorted : s.stack.Pairwise fun u v => s.index v < s.index u
  frames_sublist : (s.frames.map Frame.vertex).Sublist s.stack
  path : s.frames.IsChain fun f below =>
    g.successorAt below.vertex below.place = .ok (some f.vertex)
  found_le : s.found.size + s.stack.length ≤ s.next.toNat

/-- What the stack knows of reachability. -/
structure Lowlinks (g : Graph) (s : Search) : Prop where
  low_le : ∀ v ∈ s.stack, s.low v ≤ s.index v
  low_reaches : ∀ v ∈ s.stack, ∃ w ∈ s.stack, s.index w = s.low v ∧ g.Reaches v w
  frame_reaches : ∀ f ∈ s.frames, ∀ x ∈ s.stack, s.index f.vertex ≤ s.index x →
    g.Reaches f.vertex x
  reaches_frame : ∀ x ∈ s.stack, ∃ f ∈ s.frames, s.index f.vertex ≤ s.index x ∧
    g.Reaches x f.vertex
  seen : ∀ x ∈ s.stack, ∀ w, s.Examined g x w → s.markOf w ≠ .unseen
  escape : ∀ f ∈ s.frames, ∀ x ∈ s.stack, s.index f.vertex ≤ s.index x →
    ∀ w ∈ s.stack, s.Examined g x w →
      ∃ q ∈ s.stack, s.index f.vertex ≤ s.index q ∧ s.low q ≤ s.index w ∧
        (s.OnPath q ∨ s.Awaited g q)
  closed : ∀ x, s.markOf x = .settled → ∀ w, g.Edge x w → s.markOf w = .settled

/-- What the closed components are. -/
structure Records (g : Graph) (s : Search) : Prop where
  tidy : s.found.Tidy
  settled_iff : ∀ v : UInt32, v.toNat < g.numVertices →
    (s.markOf v = .settled ↔ ∃ i, s.found.componentOf? (g.name v) = some i)
  exists_name : ∀ l i, s.found.componentOf? l = some i →
    ∃ v : UInt32, v.toNat < g.numVertices ∧ g.name v = l
  same_iff : ∀ u v : UInt32, u.toNat < g.numVertices → v.toNat < g.numVertices →
    s.markOf u = .settled →
      (s.found.componentOf? (g.name u) = s.found.componentOf? (g.name v) ↔
        g.Reaches u v ∧ g.Reaches v u)
  order : ∀ u v i j, u.toNat < g.numVertices → v.toNat < g.numVertices → g.Edge u v →
    s.found.componentOf? (g.name u) = some i → s.found.componentOf? (g.name v) = some j → j ≤ i

structure Invariant (g : Graph) (s : Search) : Prop where
  shape : s.Shape g
  lowlinks : s.Lowlinks g
  records : s.Records g

/-! ## The shape of a search -/

namespace Shape

variable {g : Graph} {s : Search}

theorem lt_numVertices (hs : s.Shape g) {v : UInt32} (h : s.markOf v ≠ .unseen) :
    v.toNat < g.numVertices := by
  rw [← hs.size_eq]
  exact lt_size_of_markOf h

theorem stack_lt (hs : s.Shape g) {v : UInt32} (hv : v ∈ s.stack) : v.toNat < g.numVertices := by
  rcases (hs.mem_stack_iff v).1 hv with ⟨index, low, hmark⟩
  exact hs.lt_numVertices (by rw [hmark]; simp)

theorem frame_mem_stack (hs : s.Shape g) {f : Frame} (hf : f ∈ s.frames) : f.vertex ∈ s.stack :=
  hs.frames_sublist.subset (List.mem_map.2 ⟨f, hf, rfl⟩)

theorem top_mem_stack (hs : s.Shape g) {top : Frame} {rest : List Frame}
    (hframes : s.frames = top :: rest) : top.vertex ∈ s.stack :=
  hs.frame_mem_stack (top_mem hframes)

theorem nodup (hs : s.Shape g) : s.stack.Nodup := by
  refine hs.sorted.imp ?_
  intro u v hlt heq
  rw [heq] at hlt
  exact Nat.lt_irrefl _ hlt

/-- A frame below the top has a smaller index. -/
theorem index_lt_top (hs : s.Shape g) {top f : Frame} {rest : List Frame}
    (hframes : s.frames = top :: rest) (hf : f ∈ rest) : s.index f.vertex < s.index top.vertex := by
  have hsorted := hs.sorted.sublist hs.frames_sublist
  rw [hframes, List.map_cons, List.pairwise_cons] at hsorted
  exact hsorted.1 f.vertex (List.mem_map.2 ⟨f, hf, rfl⟩)

theorem index_le_top (hs : s.Shape g) {top f : Frame} {rest : List Frame}
    (hframes : s.frames = top :: rest) (hf : f ∈ s.frames) :
    s.index f.vertex ≤ s.index top.vertex := by
  rw [hframes] at hf
  rcases List.mem_cons.1 hf with rfl | hrest
  · exact Nat.le_refl _
  · exact Nat.le_of_lt (hs.index_lt_top hframes hrest)

/-- The top vertex is the only one on the path with an index as large. -/
theorem eq_top_of_onPath (hs : s.Shape g) {top : Frame} {rest : List Frame} {q : UInt32}
    (hframes : s.frames = top :: rest) (hq : s.OnPath q) (hle : s.index top.vertex ≤ s.index q) :
    q = top.vertex := by
  rcases hq with ⟨f, hf, rfl⟩
  rw [hframes] at hf
  rcases List.mem_cons.1 hf with rfl | hrest
  · rfl
  · have hlt := hs.index_lt_top hframes hrest
    omega

theorem active_top (hs : s.Shape g) {top : Frame} {rest : List Frame}
    (hframes : s.frames = top :: rest) :
    ∃ index low, s.markOf top.vertex = .active index low := by
  exact (hs.mem_stack_iff top.vertex).1 (hs.top_mem_stack hframes)

/-- What the top frame looks at is a successor of its vertex. -/
theorem edge_top (hs : s.Shape g) (hg : g.WellFormed) {top : Frame} {rest : List Frame} {w : UInt32}
    (hframes : s.frames = top :: rest)
    (hsucc : g.successorAt top.vertex top.place = .ok (some w)) : g.Edge top.vertex w :=
  (hg.edge_iff (hs.stack_lt (hs.top_mem_stack hframes))).2 ⟨_, hsucc⟩

end Shape
end Search
end TwoCnf
