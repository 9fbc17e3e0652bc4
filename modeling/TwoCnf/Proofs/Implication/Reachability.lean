import Mathlib.Logic.Relation
import TwoCnf.Implication.Graph
import TwoCnf.Proofs.Formula.Coherence

/-!
# Reachability — edges and paths of an implication graph

* `Graph.Edge` and `Graph.Reaches` — one edge, and a path of any length, along `Graph.successors`;
* `Graph.WellFormed` — every vertex has a literal of its own and a row of vertices;
* `Formula.Coherent.wellFormed_graph` — the graph of a formula is well formed, and its edges are the links
  of the formula (`Formula.edge_graph`), that is, the implications of the clauses
  (`Formula.Coherent.edge_iff`, `Formula.Coherent.mem_edges_iff`);
* `Formula.Coherent.reaches_neg` — paths can be read backwards between negations.
-/

namespace TwoCnf

/-! ## Edges and paths -/

namespace Graph

/-- The row of `u` lists `v`. -/
def Edge (g : Graph) (u v : UInt32) : Prop :=
  ∃ ws, g.successors u = .ok ws ∧ v ∈ ws

/-- A path along edges, which may be empty. -/
def Reaches (g : Graph) : UInt32 → UInt32 → Prop :=
  Relation.ReflTransGen g.Edge

/-- The literal of a vertex, and an arbitrary one where there is no vertex. -/
def name (g : Graph) (v : UInt32) : Lit :=
  (g.numbering.lit? v).getD default

/-- There are fewer vertices than numbers, each has a literal of its own, and all edges lead to
vertices. -/
structure WellFormed (g : Graph) : Prop where
  size_lt : g.numVertices < UInt32.size
  faithful : g.numbering.Faithful
  successors_ok : ∀ v : UInt32, v.toNat < g.numVertices → ∃ ws, g.successors v = .ok ws
  target_lt : ∀ u v : UInt32, g.Edge u v → v.toNat < g.numVertices

theorem span_eq_ok {g : Graph} {v : UInt32} {start stop : Nat} :
    g.span v = .ok (start, stop) ↔
      g.offsets[v.toNat]? = some start ∧ g.offsets[v.toNat + 1]? = some stop ∧
        start ≤ stop ∧ stop ≤ g.targets.size := by
  unfold span
  constructor
  · intro h
    rcases bind_eq_ok.1 h with ⟨first, hfirst, h⟩
    rcases bind_eq_ok.1 h with ⟨second, hsecond, h⟩
    split at h
    · rename_i hle
      cases h
      exact ⟨entry_eq_ok.1 hfirst, entry_eq_ok.1 hsecond, hle⟩
    · cases h
  · rintro ⟨hstart, hstop, hle⟩
    refine bind_eq_ok.2 ⟨start, entry_eq_ok.2 hstart, ?_⟩
    refine bind_eq_ok.2 ⟨stop, entry_eq_ok.2 hstop, ?_⟩
    rw [if_pos hle]

theorem successors_eq_ok {g : Graph} {v : UInt32} {ws : List UInt32} :
    g.successors v = .ok ws ↔
      ∃ start stop, g.span v = .ok (start, stop) ∧ (g.targets.extract start stop).toList = ws := by
  unfold successors
  constructor
  · intro h
    rcases bind_eq_ok.1 h with ⟨⟨start, stop⟩, hspan, h⟩
    exact ⟨start, stop, hspan, Except.ok.inj h⟩
  · rintro ⟨start, stop, hspan, rfl⟩
    exact bind_eq_ok.2 ⟨(start, stop), hspan, rfl⟩

/-- One entry of a row is an entry of the list of successors. -/
theorem successorAt_eq {g : Graph} {v : UInt32} {ws : List UInt32} (h : g.successors v = .ok ws)
    (place : Nat) : g.successorAt v place = .ok ws[place]? := by
  rcases successors_eq_ok.1 h with ⟨start, stop, hspan, rfl⟩
  rcases span_eq_ok.1 hspan with ⟨_, _, hle, hsize⟩
  unfold successorAt
  rw [hspan]
  simp only [bind, Except.bind, Array.getElem?_toList, Array.getElem?_extract]
  -- the row ends where its span does, which is inside the targets
  by_cases hplace : start + place < stop
  · have hlt : start + place < g.targets.size := by omega
    have hmin : place < min stop g.targets.size - start := by omega
    have hentry : entry g.targets (start + place) = .ok g.targets[start + place] :=
      entry_eq_ok.2 (Array.getElem?_eq_getElem hlt)
    rw [if_pos hplace, if_pos hmin, hentry, Array.getElem?_eq_getElem hlt]
    rfl
  · have hmin : ¬ place < min stop g.targets.size - start := by omega
    rw [if_neg hplace, if_neg hmin]
    rfl

theorem edge_iff_successorAt {g : Graph} {u v : UInt32} {ws : List UInt32}
    (h : g.successors u = .ok ws) :
    g.Edge u v ↔ ∃ place, g.successorAt u place = .ok (some v) := by
  constructor
  · rintro ⟨ws', hws', hv⟩
    rcases List.mem_iff_getElem?.1 hv with ⟨place, hplace⟩
    exact ⟨place, by rw [successorAt_eq hws', hplace]⟩
  · rintro ⟨place, hplace⟩
    rw [successorAt_eq h] at hplace
    exact ⟨ws, h, List.mem_of_getElem? (Except.ok.inj hplace)⟩

theorem lit_eq_ok {g : Graph} {v : UInt32} {l : Lit} :
    g.lit v = .ok l ↔ g.numbering.lit? v = some l := by
  unfold lit
  cases g.numbering.lit? v with
  | none =>
      simp
  | some m =>
      simp

theorem lit_eq_name {g : Graph} {v : UInt32} (h : v.toNat < g.numVertices) :
    g.lit v = .ok (g.name v) := by
  rcases Numbering.exists_lit? h with ⟨l, hl⟩
  rw [lit_eq_ok, name, hl]
  rfl

theorem name_of_lit {g : Graph} {v : UInt32} {l : Lit} (h : g.lit v = .ok l) :
    v.toNat < g.numVertices ∧ g.name v = l := by
  have hlt : v.toNat < g.numVertices := Numbering.toNat_lt_of_lit? (lit_eq_ok.1 h)
  rw [lit_eq_name hlt] at h
  exact ⟨hlt, Except.ok.inj h⟩

namespace WellFormed

variable {g : Graph}

theorem vertexOf?_eq_some_iff (hg : g.WellFormed) {l : Lit} {v : UInt32} :
    g.vertexOf? l = some v ↔ v.toNat < g.numVertices ∧ g.name v = l := by
  unfold vertexOf? name
  rw [hg.faithful]
  constructor
  · intro h
    exact ⟨Numbering.toNat_lt_of_lit? h, by rw [h]; rfl⟩
  · rintro ⟨hlt, rfl⟩
    rcases Numbering.exists_lit? hlt with ⟨l, hl⟩
    rw [hl]
    rfl

theorem name_injective (hg : g.WellFormed) {u v : UInt32} (hu : u.toNat < g.numVertices)
    (hv : v.toNat < g.numVertices) (h : g.name u = g.name v) : u = v := by
  have hu' := hg.vertexOf?_eq_some_iff.2 ⟨hu, h⟩
  have hv' := hg.vertexOf?_eq_some_iff.2 ⟨hv, rfl⟩
  rw [hu'] at hv'
  exact Option.some.inj hv'

theorem edge_iff (hg : g.WellFormed) {u v : UInt32} (hu : u.toNat < g.numVertices) :
    g.Edge u v ↔ ∃ place, g.successorAt u place = .ok (some v) := by
  rcases hg.successors_ok u hu with ⟨ws, hws⟩
  exact edge_iff_successorAt hws

theorem successorAt_ok (hg : g.WellFormed) {u : UInt32} (hu : u.toNat < g.numVertices)
    (place : Nat) : ∃ w, g.successorAt u place = .ok w := by
  rcases hg.successors_ok u hu with ⟨ws, hws⟩
  exact ⟨_, successorAt_eq hws place⟩

end WellFormed

/-! ## Edges between literals -/

/-- The row of a vertex, and the empty row where there is no vertex. -/
def row (g : Graph) (v : UInt32) : List UInt32 :=
  match g.successors v with
  | .ok ws => ws
  | .error _ => []

theorem mem_row {g : Graph} {u v : UInt32} : v ∈ g.row u ↔ g.Edge u v := by
  unfold row Edge
  cases g.successors u with
  | error e =>
      simp
  | ok ws =>
      simp

theorem mem_vertices {g : Graph} (hsize : g.numVertices < UInt32.size) (v : UInt32) :
    v ∈ g.vertices ↔ v.toNat < g.numVertices := by
  have hexact : (UInt32.ofNat g.numVertices).toNat = g.numVertices :=
    UInt32.toNat_ofNat_of_lt' hsize
  unfold vertices
  rw [hexact, List.mem_map]
  constructor
  · rintro ⟨i, hi, rfl⟩
    have hlt := List.mem_range.1 hi
    rw [UInt32.toNat_ofNat_of_lt' (Nat.lt_trans hlt hsize)]
    exact hlt
  · intro hv
    exact ⟨v.toNat, List.mem_range.2 hv, UInt32.ofNat_toNat⟩

namespace WellFormed

variable {g : Graph}

theorem successors_eq_row (hg : g.WellFormed) {v : UInt32} (hv : v.toNat < g.numVertices) :
    g.successors v = .ok (g.row v) := by
  rcases hg.successors_ok v hv with ⟨ws, hws⟩
  rw [row, hws]

theorem edgesFrom_eq (hg : g.WellFormed) {v : UInt32} (hv : v.toNat < g.numVertices) :
    g.edgesFrom v = .ok ((g.row v).map fun w => (g.name v, g.name w)) := by
  refine bind_eq_ok.2 ⟨g.row v, hg.successors_eq_row hv, ?_⟩
  apply mapM_eq_ok_map
  intro w hw
  have hlt := hg.target_lt v w (mem_row.1 hw)
  rw [lit_eq_name hv, lit_eq_name hlt]
  rfl

theorem edges_eq (hg : g.WellFormed) :
    g.edges = .ok (g.vertices.map fun v => (g.row v).map fun w => (g.name v, g.name w)).flatten := by
  refine bind_eq_ok.2 ⟨_, ?_, rfl⟩
  apply mapM_eq_ok_map
  intro v hv
  exact hg.edgesFrom_eq ((mem_vertices hg.size_lt v).1 hv)

/-- The edges between literals are the edges between their vertices. -/
theorem exists_edges (hg : g.WellFormed) : ∃ es, g.edges = .ok es ∧ ∀ l m, (l, m) ∈ es ↔
    ∃ u v : UInt32, u.toNat < g.numVertices ∧ v.toNat < g.numVertices ∧ g.Edge u v ∧
      g.name u = l ∧ g.name v = m := by
  refine ⟨_, hg.edges_eq, ?_⟩
  intro l m
  simp only [List.mem_flatten, List.mem_map]
  constructor
  · rintro ⟨_, ⟨u, hu, rfl⟩, hmem⟩
    rcases List.mem_map.1 hmem with ⟨v, hv, heq⟩
    rcases Prod.mk.inj heq with ⟨hl, hm⟩
    have hedge := mem_row.1 hv
    exact ⟨u, v, (mem_vertices hg.size_lt u).1 hu, hg.target_lt u v hedge, hedge, hl, hm⟩
  · rintro ⟨u, v, hu, _, hedge, rfl, rfl⟩
    exact ⟨_, ⟨u, (mem_vertices hg.size_lt u).2 hu, rfl⟩,
      List.mem_map.2 ⟨v, mem_row.2 hedge, rfl⟩⟩

end WellFormed
end Graph

/-! ## Rows laid out one after the other -/

/-- The rows stand one after the other in `targets`, and `offsets` says where each starts and ends. -/
structure Layout (rows : List Row) (offsets : Array Nat) (targets : Array UInt32) : Prop where
  size_eq : offsets.size = rows.length + 1
  last : offsets[rows.length]? = some targets.size
  row : ∀ (i : Nat) (row : Row), rows[i]? = some row → ∃ start : Nat,
    offsets[i]? = some start ∧ offsets[i + 1]? = some (start + row.ids.size) ∧
      start + row.ids.size ≤ targets.size ∧
      targets.extract start (start + row.ids.size) = row.ids

theorem Layout.snoc {rows : List Row} {offsets : Array Nat} {targets : Array UInt32}
    (h : Layout rows offsets targets) (new : Row) :
    Layout (rows ++ [new]) (offsets.push (targets ++ new.ids).size) (targets ++ new.ids) := by
  have hsize := h.size_eq
  refine ⟨by simp [hsize], ?_, ?_⟩
  · have hlen : (rows ++ [new]).length = offsets.size := by simp [hsize]
    rw [hlen]
    exact Array.getElem?_push_size
  · intro i row hrow
    by_cases hi : i < rows.length
    · -- an earlier row: nothing before the end of `targets` has moved
      rw [List.getElem?_append_left hi] at hrow
      rcases h.row i row hrow with ⟨start, hstart, hstop, hle, hextract⟩
      refine ⟨start, ?_, ?_, ?_, ?_⟩
      · rw [Array.getElem?_push_lt (by omega), ← Array.getElem?_eq_getElem]
        exact hstart
      · rw [Array.getElem?_push_lt (by omega), ← Array.getElem?_eq_getElem]
        exact hstop
      · rw [Array.size_append]
        omega
      · have hend : start + row.ids.size - targets.size = 0 := by omega
        rw [Array.extract_append, hend, hextract]
        simp
    · -- the new row starts where `targets` ended
      have hlt := (List.getElem?_eq_some_iff.1 hrow).1
      rw [List.length_append, List.length_singleton] at hlt
      have hlast : i = rows.length := by omega
      subst hlast
      have hnew : row = new := by
        rw [List.getElem?_append_right (Nat.le_refl _)] at hrow
        simpa using hrow.symm
      subst hnew
      refine ⟨targets.size, ?_, ?_, ?_, ?_⟩
      · rw [Array.getElem?_push_lt (by omega), ← Array.getElem?_eq_getElem]
        exact h.last
      · rw [← hsize, Array.getElem?_push_size, Array.size_append]
      · exact Nat.le_of_eq Array.size_append.symm
      · simp

namespace Formula

theorem layout_graph (f : Formula) : Layout f.rows.toList f.graph.offsets f.graph.targets := by
  -- the fold is followed from any layout of the rows that came before
  have hfold : ∀ (rows before : List Row) (offsets : Array Nat) (targets : Array UInt32),
      Layout before offsets targets →
        Layout (before ++ rows)
          (rows.foldl (fun (acc : Array Nat × Array UInt32) row =>
            (acc.1.push (acc.2 ++ row.ids).size, acc.2 ++ row.ids)) (offsets, targets)).1
          (rows.foldl (fun (acc : Array Nat × Array UInt32) row =>
            (acc.1.push (acc.2 ++ row.ids).size, acc.2 ++ row.ids)) (offsets, targets)).2 := by
    intro rows
    induction rows with
    | nil =>
        intro before offsets targets h
        simpa using h
    | cons row rows ih =>
        intro before offsets targets h
        have hnext := ih (before ++ [row]) _ _ (h.snoc row)
        simpa using hnext
  -- no row and the offset of the first one to come
  have hstart : Layout [] #[0] #[] := by
    refine ⟨rfl, rfl, ?_⟩
    intro i row hrow
    simp at hrow
  have hall := hfold f.rows.toList [] #[0] #[] hstart
  rw [Array.foldl_toList] at hall
  exact hall

/-- The successors of a vertex are its row. -/
theorem successors_graph {f : Formula} {v : UInt32} {row : Row}
    (h : f.rows[v.toNat]? = some row) : f.graph.successors v = .ok row.ids.toList := by
  have hrow : f.rows.toList[v.toNat]? = some row := by
    rw [Array.getElem?_toList]
    exact h
  rcases (layout_graph f).row v.toNat row hrow with ⟨start, hstart, hstop, hle, hextract⟩
  refine Graph.successors_eq_ok.2 ⟨start, start + row.ids.size, ?_, by rw [hextract]⟩
  exact Graph.span_eq_ok.2 ⟨hstart, hstop, Nat.le_add_right _ _, hle⟩

theorem successors_graph_of_none {f : Formula} {v : UInt32} (h : f.rows[v.toNat]? = none) :
    ∀ ws, f.graph.successors v ≠ .ok ws := by
  intro ws hws
  rcases Graph.successors_eq_ok.1 hws with ⟨start, stop, hspan, _⟩
  rcases Graph.span_eq_ok.1 hspan with ⟨_, hstop, _, _⟩
  have hsize := (layout_graph f).size_eq
  have hge := Array.getElem?_eq_none_iff.1 h
  have hlt := (Array.getElem?_eq_some_iff.1 hstop).1
  rw [Array.length_toList] at hsize
  omega

theorem edge_graph (f : Formula) (u v : UInt32) : f.graph.Edge u v ↔ f.Links u v := by
  constructor
  · rintro ⟨ws, hws, hv⟩
    cases hrow : f.rows[u.toNat]? with
    | none =>
        exact absurd hws (successors_graph_of_none hrow ws)
    | some row =>
        rw [successors_graph hrow] at hws
        have hmem : v ∈ row.ids.toList := Except.ok.inj hws ▸ hv
        exact ⟨row, hrow, Array.mem_def.2 hmem⟩
  · rintro ⟨row, hrow, hv⟩
    exact ⟨row.ids.toList, successors_graph hrow, Array.mem_def.1 hv⟩

namespace Coherent

variable {f : Formula}

/-- The edges are the implications of the clauses. -/
theorem edge_iff (hf : f.Coherent) (u v : UInt32) :
    f.graph.Edge u v ↔ ∃ c ∈ f.clauses, ∃ l m, c.Implies l m ∧
      f.graph.vertexOf? l = some u ∧ f.graph.vertexOf? m = some v := by
  rw [edge_graph]
  exact hf.links_iff u v

theorem wellFormed_graph (hf : f.Coherent) (hsize : f.numbering.size < UInt32.size) :
    f.graph.WellFormed where
  size_lt := hsize
  faithful := hf.faithful
  successors_ok := by
    intro v hv
    have hlt : v.toNat < f.rows.size := by
      rw [hf.indexed.rows_size]
      exact hv
    exact ⟨_, successors_graph (Array.getElem?_eq_getElem hlt)⟩
  target_lt := by
    intro u v huv
    rcases (hf.edge_iff u v).1 huv with ⟨c, _, l, m, _, _, hm⟩
    exact Numbering.toNat_lt_of_lit? ((hf.faithful m v).1 hm)

theorem exists_vertexOf?_of_mentions (hf : f.Coherent) {c : Clause} {l : Lit} (hc : c ∈ f.clauses)
    (hl : c.Mentions l.var) : ∃ v, f.graph.vertexOf? l = some v :=
  Option.isSome_iff_exists.1 ((hf.contains_iff l).2 ⟨c, hc, hl⟩)

/-- The edges between literals are the implications of the clauses. Both ends of an implication have a
vertex, so none is lost. -/
theorem mem_edges_iff (hf : f.Coherent) (hsize : f.numbering.size < UInt32.size)
    {es : List (Lit × Lit)} (hes : f.graph.edges = .ok es) (l m : Lit) :
    (l, m) ∈ es ↔ ∃ c ∈ f.clauses, c.Implies l m := by
  have hg := hf.wellFormed_graph hsize
  rcases hg.exists_edges with ⟨es', hes', hmem⟩
  rw [hes] at hes'
  cases hes'
  rw [hmem]
  constructor
  · rintro ⟨u, v, _, _, huv, rfl, rfl⟩
    rcases (hf.edge_iff u v).1 huv with ⟨c, hc, l, m, himplies, hl, hm⟩
    rw [(hg.vertexOf?_eq_some_iff.1 hl).2, (hg.vertexOf?_eq_some_iff.1 hm).2]
    exact ⟨c, hc, himplies⟩
  · rintro ⟨c, hc, himplies⟩
    rcases hf.exists_vertexOf?_of_mentions hc himplies.mentions.1 with ⟨u, hu⟩
    rcases hf.exists_vertexOf?_of_mentions hc himplies.mentions.2 with ⟨v, hv⟩
    have huv := (hf.edge_iff u v).2 ⟨c, hc, l, m, himplies, hu, hv⟩
    rcases hg.vertexOf?_eq_some_iff.1 hu with ⟨hult, hl⟩
    rcases hg.vertexOf?_eq_some_iff.1 hv with ⟨hvlt, hm⟩
    exact ⟨u, v, hult, hvlt, huv, hl, hm⟩

theorem exists_vertexOf?_neg (hf : f.Coherent) {l : Lit} {v : UInt32}
    (h : f.graph.vertexOf? l = some v) : ∃ w, f.graph.vertexOf? l.neg = some w := by
  have hl : f.contains l = true := by
    unfold Formula.contains
    exact Option.isSome_iff_exists.2 ⟨v, h⟩
  exact Option.isSome_iff_exists.1 ((hf.contains_neg l).2 hl)

/-- A vertex has one literal. -/
theorem eq_of_vertexOf? (hf : f.Coherent) {l m : Lit} {v : UInt32}
    (hl : f.graph.vertexOf? l = some v) (hm : f.graph.vertexOf? m = some v) : l = m := by
  have hlit := (hf.faithful l v).1 hl
  rw [(hf.faithful m v).1 hm] at hlit
  exact (Option.some.inj hlit).symm

/-- Every edge has an edge between the negations the other way round. -/
theorem edge_neg (hf : f.Coherent) {u v u' v' : UInt32} {l m : Lit} (huv : f.graph.Edge u v)
    (hu : f.graph.vertexOf? l = some u) (hv : f.graph.vertexOf? m = some v)
    (hu' : f.graph.vertexOf? l.neg = some u') (hv' : f.graph.vertexOf? m.neg = some v') :
    f.graph.Edge v' u' := by
  -- the clause of an edge is also the clause of the edge between the negations
  rcases (hf.edge_iff u v).1 huv with ⟨c, hc, l₁, m₁, himp, hl₁, hm₁⟩
  have hl : l₁ = l := hf.eq_of_vertexOf? hl₁ hu
  have hm : m₁ = m := hf.eq_of_vertexOf? hm₁ hv
  subst hl
  subst hm
  exact (hf.edge_iff v' u').2 ⟨c, hc, m₁.neg, l₁.neg, himp.contrapositive, hv', hu'⟩

/-- Every path has a path between the negations the other way round. -/
theorem reaches_neg (hf : f.Coherent) {u v : UInt32} {l m : Lit} (huv : f.graph.Reaches u v)
    (hu : f.graph.vertexOf? l = some u) (hv : f.graph.vertexOf? m = some v) {u' v' : UInt32}
    (hu' : f.graph.vertexOf? l.neg = some u') (hv' : f.graph.vertexOf? m.neg = some v') :
    f.graph.Reaches v' u' := by
  induction huv generalizing m v' with
  | refl =>
      have hlm : l = m := hf.eq_of_vertexOf? hu hv
      subst hlm
      rw [hu'] at hv'
      rw [Option.some.inj hv']
      exact Relation.ReflTransGen.refl
  | @tail w v _ hwv ih =>
      -- the last edge turned round comes first, then the rest of the path turned round
      rcases (hf.edge_iff w v).1 hwv with ⟨_, _, k, _, _, hk, _⟩
      rcases hf.exists_vertexOf?_neg hk with ⟨w', hw'⟩
      have hfirst : f.graph.Edge v' w' := hf.edge_neg hwv hk hv hw' hv'
      exact Relation.ReflTransGen.head hfirst (ih hk hw')

end Coherent
end Formula
end TwoCnf
