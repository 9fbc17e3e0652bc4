import Mathlib.Data.List.Forall2
import TwoCnf.Proofs.Formula.Succession
import TwoCnf.Proofs.Implication.Exactness

/-!
# Snapshot — the graph of a formula keeps its rows apart

The rows of a formula are laid out one after the other in one array, and cut out of it again by running
totals, so that one misplaced total would shift all rows behind it.

* `Formula.targetsBefore`, `Formula.offset_graph` — an offset counts the targets of the rows in front of it;
* `Formula.linksInOrder`, `Formula.Coherent.edges_eq_map` — the links by source and then by place in the
  row, and the edges between literals as their literals;
* `Formula.Snapshot` — a graph says of a formula what its rows and numbers say;
* `graph_faithful` — the graph after any calls is a snapshot, as long as there are numbers left.
-/

namespace TwoCnf

/-! ## Look-ups that fail -/

theorem entry_eq_error {α : Type} {xs : Array α} {i : Nat} (h : xs.size ≤ i) :
    entry xs i = .error .outOfRange := by
  unfold entry
  rw [Array.getElem?_eq_none_iff.2 h]

namespace Graph

theorem successors_eq_error {g : Graph} {v : UInt32} (h : g.offsets.size ≤ v.toNat + 1) :
    g.successors v = .error .outOfRange := by
  -- the row would end at an offset that is not there; where it starts does not matter
  have hspan : g.span v = .error .outOfRange := by
    unfold span
    rw [entry_eq_error h]
    by_cases hstart : g.offsets.size ≤ v.toNat
    · rw [entry_eq_error hstart]
      rfl
    · have hlt : v.toNat < g.offsets.size := Nat.lt_of_not_le hstart
      rw [entry_eq_ok.2 (Array.getElem?_eq_getElem hlt)]
      rfl
  unfold successors
  rw [hspan]
  rfl

theorem lit_eq_error {g : Graph} {v : UInt32} (h : g.numVertices ≤ v.toNat) :
    g.lit v = .error (.noVertex v) := by
  have hnone : g.numbering.lit? v = none := Array.getElem?_eq_none_iff.2 h
  unfold lit
  rw [hnone]

end Graph

/-! ## Running totals -/

namespace Formula

/-- The targets of the first `i` rows. -/
def targetsBefore (f : Formula) (i : Nat) : List UInt32 :=
  (f.rows.toList.take i).flatMap fun row => row.ids.toList

theorem targetsBefore_succ {f : Formula} {i : Nat} {row : Row} (h : f.rows[i]? = some row) :
    f.targetsBefore (i + 1) = f.targetsBefore i ++ row.ids.toList := by
  have hrow : f.rows.toList[i]? = some row := by
    rw [Array.getElem?_toList]
    exact h
  unfold targetsBefore
  rw [List.take_add_one, hrow, List.flatMap_append]
  simp

theorem targetsBefore_size (f : Formula) : f.targetsBefore f.rows.size = f.graph.targets.toList := by
  rw [targets_graph, targetsBefore, List.take_of_length_le (Nat.le_of_eq Array.length_toList)]

theorem length_targetsBefore_le (f : Formula) {i j : Nat} (h : i ≤ j) :
    (f.targetsBefore i).length ≤ (f.targetsBefore j).length :=
  ((List.take_sublist_take_left h).flatMap _).length_le

theorem offset_zero (f : Formula) : f.graph.offsets[0]? = some 0 := by
  -- rows that are laid out later put their offsets behind those that are there
  have hfold : ∀ (rows : List Row) (acc : Array Nat × Array UInt32), acc.1[0]? = some 0 →
      (rows.foldl (fun (acc : Array Nat × Array UInt32) row =>
        (acc.1.push (acc.2 ++ row.ids).size, acc.2 ++ row.ids)) acc).1[0]? = some 0 := by
    intro rows
    induction rows with
    | nil =>
        intro acc hacc
        exact hacc
    | cons row rows ih =>
        intro acc hacc
        refine ih _ ?_
        have hpos : 0 < acc.1.size := (Array.getElem?_eq_some_iff.1 hacc).1
        rw [Array.getElem?_push_lt hpos, ← Array.getElem?_eq_getElem hpos]
        exact hacc
  have hall := hfold f.rows.toList (#[0], #[]) rfl
  rw [Array.foldl_toList] at hall
  exact hall

/-- An offset counts the targets of the rows in front of it. -/
theorem offset_graph (f : Formula) {i : Nat} (hi : i ≤ f.rows.size) :
    f.graph.offsets[i]? = some (f.targetsBefore i).length := by
  induction i with
  | zero =>
      exact offset_zero f
  | succ i ih =>
      have hrow : f.rows[i]? = some f.rows[i] := Array.getElem?_eq_getElem hi
      rcases (layout_graph f).row i f.rows[i] (by rw [Array.getElem?_toList]; exact hrow) with
        ⟨start, hstart, hstop, _, _⟩
      -- the row starts where the induction hypothesis says, and its length is added
      rw [ih (Nat.le_of_succ_le hi)] at hstart
      have hlength : (f.targetsBefore (i + 1)).length =
          (f.targetsBefore i).length + f.rows[i].ids.size := by
        rw [targetsBefore_succ hrow, List.length_append]
        exact congrArg _ Array.length_toList
      rw [hstop, hlength, Option.some.inj hstart]

theorem offsets_sorted (f : Formula) : f.graph.offsets.toList.Pairwise (· ≤ ·) := by
  have hsize := (layout_graph f).size_eq
  rw [Array.length_toList] at hsize
  rw [List.pairwise_iff_getElem]
  intro i j hi hj hij
  rw [Array.length_toList] at hi hj
  have hoffset : ∀ k (hk : k < f.graph.offsets.size), f.graph.offsets[k] = (f.targetsBefore k).length := by
    intro k hk
    have hget := offset_graph f (i := k) (by omega)
    rw [Array.getElem?_eq_getElem hk] at hget
    exact Option.some.inj hget
  rw [Array.getElem_toList, Array.getElem_toList, hoffset i hi, hoffset j hj]
  exact length_targetsBefore_le f (Nat.le_of_lt hij)

/-! ## Links in order -/

/-- The links between vertices, by source and then by place in the row of the source. -/
def linksInOrder (f : Formula) : List (UInt32 × UInt32) :=
  (f.rows.toList.mapIdx fun i row => row.ids.toList.map fun w => (UInt32.ofNat i, w)).flatten

namespace Coherent

variable {f : Formula}

/-- The links are those of the rows of the graph, from vertex to vertex. -/
theorem linksInOrder_eq (hf : f.Coherent) (hsize : f.numbering.size < UInt32.size) :
    f.linksInOrder = (f.graph.vertices.map fun v => (f.graph.row v).map fun w => (v, w)).flatten := by
  have hexact : (UInt32.ofNat f.graph.numVertices).toNat = f.rows.size := by
    rw [hf.indexed.rows_size]
    exact UInt32.toNat_ofNat_of_lt' hsize
  unfold linksInOrder Graph.vertices
  rw [hexact, List.map_map]
  congr 1
  apply List.ext_getElem
  · simp
  · intro i hi hi'
    have hlt : i < f.rows.size := by simpa using hi'
    have hi32 : (UInt32.ofNat i).toNat = i := by
      rw [hf.indexed.rows_size] at hlt
      exact UInt32.toNat_ofNat_of_lt' (Nat.lt_trans hlt hsize)
    have hrow : f.rows[(UInt32.ofNat i).toNat]? = some f.rows[i] := by
      rw [hi32]
      exact Array.getElem?_eq_getElem hlt
    simp only [List.getElem_mapIdx, List.getElem_map, List.getElem_range, Function.comp_apply,
      row_graph hrow, Array.getElem_toList]

/-- The edges between literals are the links, vertex by vertex turned into literals. -/
theorem edges_eq_map (hf : f.Coherent) (hsize : f.numbering.size < UInt32.size) :
    f.graph.edges = .ok (f.linksInOrder.map fun link => (f.graph.name link.1, f.graph.name link.2)) := by
  rw [(hf.wellFormed_graph hsize).edges_eq, hf.linksInOrder_eq hsize, List.map_flatten, List.map_map]
  congr 2
  apply List.map_congr_left
  intro v _
  simp only [Function.comp_apply, List.map_map]
  rfl

theorem lt_of_mem_linksInOrder (hf : f.Coherent) (hsize : f.numbering.size < UInt32.size)
    {u v : UInt32} (h : (u, v) ∈ f.linksInOrder) :
    u.toNat < f.graph.numVertices ∧ v.toNat < f.graph.numVertices := by
  have hg := hf.wellFormed_graph hsize
  rw [hf.linksInOrder_eq hsize, List.mem_flatten] at h
  rcases h with ⟨_, hrow, hmem⟩
  rcases List.mem_map.1 hrow with ⟨u', hu, rfl⟩
  rcases List.mem_map.1 hmem with ⟨v', hv, heq⟩
  cases heq
  exact ⟨(Graph.mem_vertices hg.size_lt u).1 hu, hg.target_lt u v (Graph.mem_row.1 hv)⟩

end Coherent

/-! ## The snapshot -/

/-- What a graph says of a formula. The offsets start at zero, do not fall, are one more than the vertices
and end at the number of edges. The successors of a vertex are its row in the formula, in the order of
insertion; literals and vertices are mutually inverse between the literals of the formula and the numbers
below that of the vertices. Both are refused for every other number. The edges are the pairs of literals of
the links, by source and then in the order of insertion. -/
structure Snapshot (f : Formula) (g : Graph) : Prop where
  numVertices_eq : g.numVertices = f.rows.size
  offsets_size : g.offsets.size = g.numVertices + 1
  offsets_first : g.offsets[0]? = some 0
  offsets_sorted : g.offsets.toList.Pairwise (· ≤ ·)
  offsets_last : g.offsets[g.numVertices]? = some g.numEdges
  successors : ∀ id : UInt32, id.toNat < g.numVertices →
    ∃ row, f.rows[id.toNat]? = some row ∧ g.successors id = .ok row.ids.toList
  successors_beyond : ∀ id : UInt32, g.numVertices ≤ id.toNat → g.successors id = .error .outOfRange
  lit : ∀ id : UInt32, id.toNat < g.numVertices →
    ∃ l, f.contains l = true ∧ g.lit id = .ok l ∧ g.vertexOf? l = some id
  lit_beyond : ∀ id : UInt32, g.numVertices ≤ id.toNat → g.lit id = .error (.noVertex id)
  vertexOf? : ∀ l, f.contains l = true →
    ∃ id : UInt32, id.toNat < g.numVertices ∧ g.vertexOf? l = some id ∧ g.lit id = .ok l
  vertexOf?_foreign : ∀ l, f.contains l = false → g.vertexOf? l = none
  edges : ∃ es, g.edges = .ok es ∧ es.length = g.numEdges ∧
    List.Forall₂ (fun link edge => g.lit link.1 = .ok edge.1 ∧ g.lit link.2 = .ok edge.2)
      f.linksInOrder es

theorem Coherent.snapshot {f : Formula} (hf : f.Coherent) (hsize : f.numbering.size < UInt32.size) :
    f.Snapshot f.graph := by
  have hg := hf.wellFormed_graph hsize
  have hrows : f.rows.size = f.graph.numVertices := hf.indexed.rows_size
  have hoffsets : f.graph.offsets.size = f.graph.numVertices + 1 := by
    rw [← hrows, (layout_graph f).size_eq, Array.length_toList]
  refine
    { numVertices_eq := hrows.symm
      offsets_size := hoffsets
      offsets_first := offset_zero f
      offsets_sorted := f.offsets_sorted
      offsets_last := ?_
      successors := ?_
      successors_beyond := ?_
      lit := ?_
      lit_beyond := fun id hid => Graph.lit_eq_error hid
      vertexOf? := ?_
      vertexOf?_foreign := ?_
      edges := ?_ }
  · rw [← hrows, offset_graph f (Nat.le_refl _), targetsBefore_size, Array.length_toList]
    rfl
  · intro id hid
    rw [← hrows] at hid
    have hrow : f.rows[id.toNat]? = some f.rows[id.toNat] := Array.getElem?_eq_getElem hid
    exact ⟨_, hrow, successors_graph hrow⟩
  · intro id hid
    apply Graph.successors_eq_error
    omega
  · intro id hid
    have hvertex := hg.vertexOf?_eq_some_iff.2 ⟨hid, rfl⟩
    refine ⟨f.graph.name id, ?_, Graph.lit_eq_name hid, hvertex⟩
    exact Option.isSome_iff_exists.2 ⟨id, hvertex⟩
  · intro l hl
    rcases Option.isSome_iff_exists.1 hl with ⟨id, hid⟩
    rcases hg.vertexOf?_eq_some_iff.1 hid with ⟨hlt, rfl⟩
    exact ⟨id, hlt, hid, Graph.lit_eq_name hlt⟩
  · intro l hl
    exact Option.isNone_iff_eq_none.1 (Option.isSome_eq_false_iff.1 hl)
  · refine ⟨_, hf.edges_eq_map hsize, ?_, ?_⟩
    · exact (hf.numEdges_eq_length hsize (hf.edges_eq_map hsize)).symm
    · rw [List.forall₂_map_right_iff, List.forall₂_same]
      rintro ⟨u, v⟩ hlink
      rcases hf.lt_of_mem_linksInOrder hsize hlink with ⟨hu, hv⟩
      exact ⟨Graph.lit_eq_name hu, Graph.lit_eq_name hv⟩

end Formula

/-- The row of a vertex, read as literals, lists what the clauses imply from its literal, in order. -/
theorem Formula.Built.mapM_lit_successors {f : Formula} (hf : f.Built)
    (hsize : f.numbering.size < UInt32.size) {id : UInt32} {l : Lit} (hl : f.graph.lit id = .ok l) :
    ∃ ws, f.graph.successors id = .ok ws ∧
      ws.mapM f.graph.lit = .ok (impliedFrom (f.clauses.toList.flatMap Clause.implications) l) := by
  have hcoherent := hf.coherent hsize
  have hg := hcoherent.wellFormed_graph hsize
  have hlit : f.numbering.lit? id = some l := Graph.lit_eq_ok.1 hl
  have hlt : id.toNat < f.rows.size := by
    rw [hcoherent.indexed.rows_size]
    exact Numbering.toNat_lt_of_lit? hlit
  have hrow : f.rows[id.toNat]? = some f.rows[id.toNat] := Array.getElem?_eq_getElem hlt
  have hws := Formula.successors_graph hrow
  have hread := (hf.ordered hsize).row l id _ ((hcoherent.faithful l id).2 hlit) hrow
  have hnames : f.rows[id.toNat].ids.toList.map f.graph.name =
      impliedFrom (f.clauses.toList.flatMap Clause.implications) l := by
    have hmap := congrArg (List.map fun name => Option.getD name default) hread
    rw [List.map_map, List.map_map] at hmap
    exact hmap.trans (List.map_id _)
  refine ⟨_, hws, ?_⟩
  rw [← hnames]
  apply mapM_eq_ok_map
  intro w hw
  exact Graph.lit_eq_name (hg.target_lt id w ⟨_, hws, hw⟩)

/-- The graph after any calls, accepted or refused, with fewer than `4294967296` vertices is a snapshot of the
formula. The order of insertion that its rows keep is that of the accepted clauses: the successors of a
vertex are what these imply from its literal, each once, in the order in which they first do. -/
theorem graph_faithful (calls : List (Int32 × Int32))
    (hsize : (Formula.collect calls).graph.numVertices < UInt32.size) :
    (Formula.collect calls).Snapshot (Formula.collect calls).graph ∧
    ∀ id l, (Formula.collect calls).graph.lit id = .ok l →
      ∃ ws, (Formula.collect calls).graph.successors id = .ok ws ∧
        ws.mapM (Formula.collect calls).graph.lit =
          .ok (impliedFrom ((acceptedOf calls).flatMap Clause.implications) l) := by
  rcases Formula.built_collect calls with ⟨hbuilt, hclauses⟩
  refine ⟨(hbuilt.coherent hsize).snapshot hsize, ?_⟩
  intro id l hl
  rw [← hclauses]
  exact hbuilt.mapM_lit_successors hsize hl

/-- Two clauses imply something from `1`, one of them twice, and a call is refused between them. -/
theorem graph_faithful_repeated :
    (Formula.collect [(-1, 2), (0, 3), (-1, 3), (-1, 2)]).graph.numVertices < UInt32.size ∧
    (Formula.collect [(-1, 2), (0, 3), (-1, 3), (-1, 2)]).graph.successors 6 = .error .outOfRange ∧
    ∃ ws, (Formula.collect [(-1, 2), (0, 3), (-1, 3), (-1, 2)]).graph.successors 1 = .ok ws ∧
      ws.mapM (Formula.collect [(-1, 2), (0, 3), (-1, 3), (-1, 2)]).graph.lit =
        .ok [⟨2, true⟩, ⟨3, true⟩] := by
  have hsize : (Formula.collect [(-1, 2), (0, 3), (-1, 3), (-1, 2)]).graph.numVertices <
      UInt32.size := by
    decide +kernel
  have hlit : (Formula.collect [(-1, 2), (0, 3), (-1, 3), (-1, 2)]).graph.lit 1 =
      .ok ⟨1, true⟩ := by
    decide +kernel
  have himplied : impliedFrom ((acceptedOf [(-1, 2), (0, 3), (-1, 3), (-1, 2)]).flatMap
      Clause.implications) ⟨1, true⟩ = [⟨2, true⟩, ⟨3, true⟩] := by
    decide +kernel
  rcases graph_faithful _ hsize with ⟨hsnapshot, hrows⟩
  refine ⟨hsize, hsnapshot.successors_beyond 6 (by decide +kernel), ?_⟩
  rw [← himplied]
  exact hrows 1 _ hlit

end TwoCnf
