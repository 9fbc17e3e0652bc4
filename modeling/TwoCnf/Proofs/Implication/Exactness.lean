import Mathlib.Algebra.BigOperators.Group.Finset.Basic
import Mathlib.Data.Sym.Sym2
import TwoCnf.Proofs.Formula.Bookkeeping
import TwoCnf.Proofs.Implication.Reachability

/-!
# Exactness — the graph holds the implications of the clauses, each once

A clause of two literals stands for two implications, which coincide if its literals do. As a set of its
two literals it can be told from either of them, so different sets share no implication.

* `Clause.pair`, `pairsOf` — a clause as a set of literals, and the different ones among some clauses;
* `Formula.Coherent.nodup_edges`, `Formula.Coherent.numEdges_eq_length` — no edge is listed twice, and the
  targets are as many as the edges;
* `length_eq_sum` — so each set of literals counts for one edge or for two;
* `Formula.Coherent.beq_insert_iff` — a further clause leaves the graph as it is exactly if its set of
  literals is not new;
* `implications_exact` — all this for the graph after any calls.
-/

namespace TwoCnf

/-! ## Clauses as sets of literals -/

theorem Lit.neg_eq_iff {l m : Lit} : l.neg = m ↔ l = m.neg := by
  constructor
  · rintro rfl
    exact (Lit.neg_neg l).symm
  · rintro rfl
    exact Lit.neg_neg m

/-- The literals of a clause, in no order. -/
def Clause.pair (c : Clause) : Sym2 Lit :=
  s(c.left, c.right)

/-- The different sets of literals among some clauses. -/
def pairsOf (cs : List Clause) : Finset (Sym2 Lit) :=
  (cs.map Clause.pair).toFinset

/-- A clause implies `m` from `l` exactly if it consists of `¬l` and `m`. -/
theorem Clause.implies_iff {c : Clause} {l m : Lit} : c.Implies l m ↔ c.pair = s(l.neg, m) := by
  unfold Clause.Implies Clause.pair
  rw [Sym2.eq_iff, ← Lit.neg_eq_iff, ← Lit.neg_eq_iff]
  constructor
  · rintro (⟨hl, hm⟩ | ⟨hl, hm⟩)
    · exact Or.inl ⟨hl.symm, hm.symm⟩
    · exact Or.inr ⟨hm.symm, hl.symm⟩
  · rintro (⟨hl, hm⟩ | ⟨hm, hl⟩)
    · exact Or.inl ⟨hl.symm, hm.symm⟩
    · exact Or.inr ⟨hl.symm, hm.symm⟩

theorem mem_pairsOf {cs : List Clause} {pair : Sym2 Lit} :
    pair ∈ pairsOf cs ↔ ∃ c ∈ cs, c.pair = pair := by
  unfold pairsOf
  rw [List.mem_toFinset, List.mem_map]

theorem mem_pairsOf_mk {cs : List Clause} {l m : Lit} :
    s(l, m) ∈ pairsOf cs ↔ ⟨l, m⟩ ∈ cs ∨ ⟨m, l⟩ ∈ cs := by
  rw [mem_pairsOf]
  constructor
  · rintro ⟨⟨left, right⟩, hc, heq⟩
    rcases Sym2.eq_iff.1 heq with ⟨rfl, rfl⟩ | ⟨rfl, rfl⟩
    · exact Or.inl hc
    · exact Or.inr hc
  · rintro (hc | hc)
    · exact ⟨_, hc, rfl⟩
    · exact ⟨_, hc, Sym2.eq_swap⟩

/-! ## How many edges there are -/

/-- The implications of a set of literals: one if it has one literal, and else two. -/
theorem card_implications (es : List (Lit × Lit)) (pair : Sym2 Lit)
    (h : ∀ l m, s(l.neg, m) = pair → (l, m) ∈ es) :
    (es.toFinset.filter fun e => s(e.1.neg, e.2) = pair).card = if pair.IsDiag then 1 else 2 := by
  induction pair with
  | _ a b =>
      have hedges : (es.toFinset.filter fun e => s(e.1.neg, e.2) = s(a, b)) =
          {(a.neg, b), (b.neg, a)} := by
        ext ⟨l, m⟩
        simp only [Finset.mem_filter, List.mem_toFinset, Finset.mem_insert, Finset.mem_singleton,
          Prod.mk.injEq]
        rw [and_iff_right_of_imp (h l m), Sym2.eq_iff, Lit.neg_eq_iff, Lit.neg_eq_iff]
      rw [hedges]
      by_cases hab : a = b
      · rw [if_pos (Sym2.mk_isDiag_iff.2 hab), hab, Finset.pair_eq_singleton, Finset.card_singleton]
      · rw [if_neg (mt Sym2.mk_isDiag_iff.1 hab)]
        refine Finset.card_pair ?_
        intro heq
        exact hab (Prod.mk.inj heq).2.symm

/-- Edges that are the implications of some sets of literals, each listed once. -/
theorem length_eq_sum {es : List (Lit × Lit)} {pairs : Finset (Sym2 Lit)} (hnodup : es.Nodup)
    (hes : ∀ l m, (l, m) ∈ es ↔ s(l.neg, m) ∈ pairs) :
    es.length = ∑ pair ∈ pairs, if pair.IsDiag then 1 else 2 := by
  have hmaps : Set.MapsTo (fun e : Lit × Lit => s(e.1.neg, e.2)) es.toFinset pairs := by
    rintro ⟨l, m⟩ he
    exact (hes l m).1 (List.mem_toFinset.1 he)
  calc
    es.length = es.toFinset.card := (List.toFinset_card_of_nodup hnodup).symm
    _ = ∑ pair ∈ pairs, (es.toFinset.filter fun e => s(e.1.neg, e.2) = pair).card :=
          Finset.card_eq_sum_card_fiberwise hmaps
    _ = ∑ pair ∈ pairs, if pair.IsDiag then 1 else 2 := by
          refine Finset.sum_congr rfl ?_
          intro pair hpair
          apply card_implications
          rintro l m rfl
          exact (hes l m).2 hpair

namespace Graph

theorem nodup_vertices (g : Graph) : g.vertices.Nodup := by
  refine List.nodup_range.map_on ?_
  intro i hi j hj hij
  have hbound : ∀ k ∈ List.range (UInt32.ofNat g.numVertices).toNat, k < UInt32.size := by
    intro k hk
    exact Nat.lt_trans (List.mem_range.1 hk) (UInt32.toNat_lt_size _)
  rw [← UInt32.toNat_ofNat_of_lt' (hbound i hi), ← UInt32.toNat_ofNat_of_lt' (hbound j hj), hij]

/-- If no row lists a vertex twice, then no edge is listed twice. -/
theorem WellFormed.nodup_edges {g : Graph} (hg : g.WellFormed) (hrows : ∀ v, (g.row v).Nodup)
    {es : List (Lit × Lit)} (hes : g.edges = .ok es) : es.Nodup := by
  rw [hg.edges_eq] at hes
  cases hes
  have hlt : ∀ v ∈ g.vertices, v.toNat < g.numVertices := by
    intro v hv
    exact (mem_vertices hg.size_lt v).1 hv
  rw [← List.flatMap_def, List.nodup_flatMap]
  constructor
  · intro v hv
    refine (hrows v).map_on ?_
    intro w hw w' hw' heq
    exact hg.name_injective (hg.target_lt v w (mem_row.1 hw)) (hg.target_lt v w' (mem_row.1 hw'))
      (Prod.mk.inj heq).2
  · -- edges from different vertices start at different literals
    refine g.nodup_vertices.imp_of_mem ?_
    intro u v hu hv huv e heu hev
    rcases List.mem_map.1 heu with ⟨_, _, rfl⟩
    rcases List.mem_map.1 hev with ⟨_, _, heq⟩
    exact huv (hg.name_injective (hlt u hu) (hlt v hv) (Prod.mk.inj heq).1.symm)

end Graph

namespace Formula

theorem targets_graph (f : Formula) :
    f.graph.targets.toList = f.rows.toList.flatMap fun row => row.ids.toList := by
  have hfold : ∀ (rows : List Row) (acc : Array Nat × Array UInt32),
      (rows.foldl (fun (acc : Array Nat × Array UInt32) row =>
        (acc.1.push (acc.2 ++ row.ids).size, acc.2 ++ row.ids)) acc).2.toList =
        acc.2.toList ++ rows.flatMap fun row => row.ids.toList := by
    intro rows
    induction rows with
    | nil =>
        intro acc
        simp
    | cons row rows ih =>
        intro acc
        rw [List.foldl_cons, ih, Array.toList_append, List.flatMap_cons, List.append_assoc]
  have hall := hfold f.rows.toList (#[0], #[])
  rw [Array.foldl_toList] at hall
  exact hall

theorem row_graph {f : Formula} {v : UInt32} {row : Row} (h : f.rows[v.toNat]? = some row) :
    f.graph.row v = row.ids.toList := by
  rw [Graph.row, successors_graph h]

namespace Coherent

variable {f : Formula}

theorem nodup_row (hf : f.Coherent) (v : UInt32) : (f.graph.row v).Nodup := by
  cases hrow : f.rows[v.toNat]? with
  | some row =>
      rw [row_graph hrow]
      exact hf.rows_nodup row (Array.mem_of_getElem? hrow)
  | none =>
      unfold Graph.row
      cases hws : f.graph.successors v with
      | ok ws =>
          exact absurd hws (successors_graph_of_none hrow ws)
      | error e =>
          exact List.nodup_nil

theorem nodup_edges (hf : f.Coherent) (hsize : f.numbering.size < UInt32.size)
    {es : List (Lit × Lit)} (hes : f.graph.edges = .ok es) : es.Nodup :=
  (hf.wellFormed_graph hsize).nodup_edges hf.nodup_row hes

/-- The rows of the graph are those of the formula. -/
theorem map_row_vertices (hf : f.Coherent) (hsize : f.numbering.size < UInt32.size) :
    f.graph.vertices.map f.graph.row = f.rows.toList.map fun row => row.ids.toList := by
  have hexact : (UInt32.ofNat f.graph.numVertices).toNat = f.rows.size := by
    rw [hf.indexed.rows_size]
    exact UInt32.toNat_ofNat_of_lt' hsize
  unfold Graph.vertices
  rw [hexact, List.map_map]
  apply List.ext_getElem
  · simp
  · intro i hi hi'
    have hlt : i < f.rows.size := by simpa using hi'
    have hi32 : (UInt32.ofNat i).toNat = i := by
      rw [hf.indexed.rows_size] at hlt
      exact UInt32.toNat_ofNat_of_lt' (Nat.lt_trans hlt hsize)
    have hrow : f.rows[(UInt32.ofNat i).toNat]? = some f.rows[i] := by
      rw [hi32]
      exact Array.getElem?_eq_getElem hlt
    simp only [List.getElem_map, List.getElem_range, Function.comp_apply, row_graph hrow,
      Array.getElem_toList]

/-- The targets are as many as the edges. -/
theorem numEdges_eq_length (hf : f.Coherent) (hsize : f.numbering.size < UInt32.size)
    {es : List (Lit × Lit)} (hes : f.graph.edges = .ok es) : f.graph.numEdges = es.length := by
  rw [(hf.wellFormed_graph hsize).edges_eq] at hes
  cases hes
  have htargets : f.graph.targets.toList = f.graph.vertices.flatMap f.graph.row := by
    rw [targets_graph, List.flatMap_def, List.flatMap_def, hf.map_row_vertices hsize]
  rw [Graph.numEdges, ← Array.length_toList, htargets, List.length_flatMap, List.length_flatten,
    List.map_map]
  simp only [Function.comp_def, List.length_map]

theorem mem_edges_iff_pair (hf : f.Coherent) (hsize : f.numbering.size < UInt32.size)
    {es : List (Lit × Lit)} (hes : f.graph.edges = .ok es) (l m : Lit) :
    (l, m) ∈ es ↔ s(l.neg, m) ∈ pairsOf f.clauses.toList := by
  simp only [hf.mem_edges_iff hsize hes, mem_pairsOf, Clause.implies_iff, Array.mem_def]

end Coherent

/-! ## A further clause -/

/-- A clause between literals that have vertices makes none. -/
theorem withVertices_of_contains {f : Formula} {c : Clause} (hleft : f.contains c.left = true)
    (hleft' : f.contains c.left.neg = true) (hright : f.contains c.right = true)
    (hright' : f.contains c.right.neg = true) : f.withVertices c = f := by
  have hvertex : ∀ l, f.contains l = true → (f.vertex l).2 = f := by
    intro l hl
    rcases Option.isSome_iff_exists.1 hl with ⟨id, hid⟩
    rw [vertex_of_some hid]
  unfold withVertices
  rw [hvertex _ hleft, hvertex _ hleft', hvertex _ hright, hvertex _ hright']

/-- A link that is there already is not entered again. -/
theorem link_of_links {f : Formula} {u v : UInt32} (h : f.Links u v) : f.link u v = f := by
  rcases h with ⟨row, hrow, hv⟩
  have hinsert : row.insert v = row := by
    unfold Row.insert
    rw [if_pos (by simpa using hv)]
  have hrows : f.rows.modify u.toNat (·.insert v) = f.rows := by
    apply Array.ext_getElem?
    intro i
    rw [Array.getElem?_modify]
    split
    · rename_i hi
      rw [← hi, hrow, Option.map_some, hinsert]
    · rfl
  unfold link
  rw [hrows]

@[simp] theorem numbering_graph (f : Formula) : f.graph.numbering = f.numbering :=
  rfl

theorem graph_record (f : Formula) (c : Clause) : (f.record c).graph = f.graph :=
  rfl

namespace Coherent

variable {f : Formula} {c : Clause}

/-- A clause whose set of literals is there already changes nothing in the graph. -/
theorem graph_insert_of_mem (hf : f.Coherent) (h : c.pair ∈ pairsOf f.clauses.toList) :
    (f.insert c).graph = f.graph := by
  rcases mem_pairsOf.1 h with ⟨d, hd, hpair⟩
  -- the older clause has the same implications, and so the same vertices
  have himplies : ∀ l m, c.Implies l m → d.Implies l m := by
    intro l m hc
    rw [Clause.implies_iff] at hc ⊢
    rw [hpair, hc]
  have hright : d.Implies c.left.neg c.right := himplies _ _ (Or.inl ⟨rfl, rfl⟩)
  have hleft : d.Implies c.right.neg c.left := himplies _ _ (Or.inr ⟨rfl, rfl⟩)
  have hd' : d ∈ f.clauses := Array.mem_def.2 hd
  have hcontains : ∀ l : Lit, d.Mentions l.var → f.contains l = true := by
    intro l hl
    exact (hf.contains_iff l).2 ⟨d, hd', hl⟩
  have hvertices : f.withVertices c = f :=
    withVertices_of_contains (hcontains _ hleft.mentions.2) (hcontains _ hright.mentions.1)
      (hcontains _ hright.mentions.2) (hcontains _ hleft.mentions.1)
  rcases exists_insert_eq hf.indexed c with ⟨a, notA, b, notB, _, _, ha, hna, hb, hnb, heq⟩
  rw [hvertices] at ha hna hb hnb heq
  have hlink : f.Links notA b := (hf.links_iff _ _).2 ⟨d, hd', _, _, hright, hna, hb⟩
  have hlink' : f.Links notB a := (hf.links_iff _ _).2 ⟨d, hd', _, _, hleft, hnb, ha⟩
  rw [heq, link_of_links hlink, link_of_links hlink', graph_record]

end Coherent

end Formula

theorem Numbering.id?_of_beq {m n : Numbering} (h : (m == n) = true) (l : Lit) :
    m.id? l = n.id? l := by
  have hequiv : m.ids.Equiv n.ids := Std.TreeMap.equiv_of_beq h
  unfold id?
  rw [Std.TreeMap.get?_eq_getElem?, Std.TreeMap.get?_eq_getElem?]
  exact hequiv.getElem?_eq

theorem Graph.eq_of_parts {g h : Graph} (hnumbering : g.numbering = h.numbering)
    (hoffsets : g.offsets = h.offsets) (htargets : g.targets = h.targets) : g = h := by
  cases g
  cases h
  simp_all

theorem Graph.beq_iff {g h : Graph} : (g == h) = true ↔
    (g.numbering == h.numbering) = true ∧ g.offsets = h.offsets ∧ g.targets = h.targets := by
  show (g.numbering == h.numbering && g.offsets == h.offsets && g.targets == h.targets) = true ↔ _
  simp only [Bool.and_eq_true, and_assoc]
  rw [beq_iff_eq (a := g.offsets), beq_iff_eq (a := g.targets)]

theorem Graph.beq_self (g : Graph) : (g == g) = true :=
  Graph.beq_iff.2 ⟨Std.TreeMap.Equiv.beq Std.TreeMap.Equiv.rfl, rfl, rfl⟩

namespace Formula.Coherent

variable {f : Formula} {c : Clause}

/-- If the graph after an insertion is the same, the set of literals was there already. The formula after
it may have as many vertices as there are numbers. -/
theorem mem_of_beq_insert (hf : f.Coherent) (hsize : f.numbering.size < UInt32.size)
    (h : ((f.insert c).graph == f.graph) = true) : c.pair ∈ pairsOf f.clauses.toList := by
  rcases Graph.beq_iff.1 h with ⟨hnumbering, hoffsets, htargets⟩
  rw [numbering_graph, numbering_graph] at hnumbering
  -- no literal is new, so no vertex is made and the numbering stays the same
  have hcontains : ∀ l : Lit, c.Mentions l.var → f.contains l = true := by
    intro l hl
    have hnew := (contains_insert f c l).2 (Or.inl hl)
    unfold Formula.contains at hnew ⊢
    rw [← Numbering.id?_of_beq hnumbering l]
    exact hnew
  have hvertices : f.withVertices c = f :=
    withVertices_of_contains (hcontains _ (Or.inl rfl)) (hcontains _ (Or.inl rfl))
      (hcontains _ (Or.inr rfl)) (hcontains _ (Or.inr rfl))
  have hsame : (f.insert c).numbering = f.numbering := by
    rw [numbering_insert, hvertices]
  have hgraph : (f.insert c).graph = f.graph := by
    refine Graph.eq_of_parts ?_ hoffsets htargets
    rw [numbering_graph, numbering_graph, hsame]
  have hsize' : (f.insert c).numbering.size < UInt32.size := by
    rw [hsame]
    exact hsize
  -- the implication of the clause is an edge of the one graph and so of the other
  rcases (hf.wellFormed_graph hsize).exists_edges with ⟨es, hes, _⟩
  have hes' : (f.insert c).graph.edges = .ok es := by
    rw [hgraph]
    exact hes
  have hedge : (c.left.neg, c.right) ∈ es := by
    refine ((hf.insert c hsize').mem_edges_iff hsize' hes' _ _).2 ⟨c, ?_, Or.inl ⟨rfl, rfl⟩⟩
    rw [clauses_insert]
    exact Array.mem_push_self
  rw [hf.mem_edges_iff_pair hsize hes, Lit.neg_neg] at hedge
  exact hedge

/-- A further clause leaves the graph as it is exactly if its set of literals is not new. -/
theorem beq_insert_iff (hf : f.Coherent) (hsize : f.numbering.size < UInt32.size) :
    ((f.insert c).graph == f.graph) = true ↔ c.pair ∈ pairsOf f.clauses.toList := by
  constructor
  · exact hf.mem_of_beq_insert hsize
  · intro h
    rw [hf.graph_insert_of_mem h]
    exact Graph.beq_self _

theorem graph_insert_eq_iff (hf : f.Coherent) (hsize : f.numbering.size < UInt32.size) :
    (f.insert c).graph = f.graph ↔ c.pair ∈ pairsOf f.clauses.toList := by
  constructor
  · intro h
    apply hf.mem_of_beq_insert hsize
    rw [h]
    exact Graph.beq_self _
  · exact hf.graph_insert_of_mem

end Formula.Coherent

/-- The graph after any calls, accepted or refused, with fewer than `4294967296` vertices. It has the edge
`x → y` exactly if the clause of `¬x` and `y` was accepted, with its halves in either order, and lists it
once; so with an edge it has that between the negations the other way round. It has one edge for each
accepted clause of one literal and two for each of two literals, where clauses that differ only in the
order of their halves count once. One more clause without a zero half is accepted, and leaves the graph
as it is, be it compared entry by entry or by `==`, exactly if it has been accepted before, in either
order. -/
theorem implications_exact (calls : List (Int32 × Int32))
    (hsize : (Formula.collect calls).graph.numVertices < UInt32.size) :
    ∃ es, (Formula.collect calls).graph.edges = .ok es ∧ es.Nodup ∧
      (∀ x y, (x, y) ∈ es ↔ ⟨x.neg, y⟩ ∈ acceptedOf calls ∨ ⟨y, x.neg⟩ ∈ acceptedOf calls) ∧
      (∀ x y, (x, y) ∈ es ↔ (y.neg, x.neg) ∈ es) ∧
      (Formula.collect calls).graph.numEdges = es.length ∧
      (Formula.collect calls).graph.numEdges =
        ∑ pair ∈ pairsOf (acceptedOf calls), (if pair.IsDiag then 1 else 2) ∧
      ∀ a b : Int32, a ≠ 0 → b ≠ 0 → ∃ c f',
        (Formula.collect calls).insertSigned a b = (.ok c, f') ∧ c = Clause.ofHalves (a, b) ∧
        (f'.graph = (Formula.collect calls).graph ↔
          c ∈ acceptedOf calls ∨ ⟨c.right, c.left⟩ ∈ acceptedOf calls) ∧
        ((f'.graph == (Formula.collect calls).graph) = true ↔
          c ∈ acceptedOf calls ∨ ⟨c.right, c.left⟩ ∈ acceptedOf calls) := by
  rcases Formula.built_collect calls with ⟨hbuilt, hclauses⟩
  have hf := hbuilt.coherent hsize
  rcases (hf.wellFormed_graph hsize).exists_edges with ⟨es, hes, _⟩
  have hmem : ∀ x y, (x, y) ∈ es ↔ s(x.neg, y) ∈ pairsOf (acceptedOf calls) := by
    rw [← hclauses]
    exact hf.mem_edges_iff_pair hsize hes
  have hnodup := hf.nodup_edges hsize hes
  have hlength := hf.numEdges_eq_length hsize hes
  refine ⟨es, hes, hnodup, ?_, ?_, hlength, hlength.trans (length_eq_sum hnodup hmem), ?_⟩
  · intro x y
    rw [hmem, mem_pairsOf_mk]
  · intro x y
    rw [hmem, hmem, Lit.neg_neg, Sym2.eq_swap]
  · intro a b ha hb
    have hne : ((a, b) : Int32 × Int32).1 ≠ 0 ∧ ((a, b) : Int32 × Int32).2 ≠ 0 := ⟨ha, hb⟩
    rcases (Formula.collect calls).attempt_of_ne_zero hne with ⟨hins, hinsert⟩
    refine ⟨_, _, hins, rfl, ?_⟩
    rw [hinsert, hf.graph_insert_eq_iff hsize, hf.beq_insert_iff hsize, hclauses]
    exact ⟨mem_pairsOf_mk, mem_pairsOf_mk⟩

/-- A clause of one literal, a tautology, a refused call, and a clause with its halves exchanged, which is
then inserted a third time. -/
theorem implications_exact_swapped :
    (Formula.collect [(1, 1), (2, -2), (3, 0), (-1, 2147483647), (2147483647, -1)]).graph.numVertices <
      UInt32.size ∧
    ∃ f', (Formula.collect [(1, 1), (2, -2), (3, 0), (-1, 2147483647),
        (2147483647, -1)]).insertSigned (-1) 2147483647 =
        (.ok ⟨⟨1, false⟩, ⟨2147483647, true⟩⟩, f') ∧
      f'.graph = (Formula.collect [(1, 1), (2, -2), (3, 0), (-1, 2147483647),
        (2147483647, -1)]).graph := by
  have hsize : (Formula.collect [(1, 1), (2, -2), (3, 0), (-1, 2147483647),
      (2147483647, -1)]).graph.numVertices < UInt32.size := by
    decide +kernel
  rcases implications_exact _ hsize with ⟨_, _, _, _, _, _, _, hmore⟩
  rcases hmore (-1) 2147483647 (by decide) (by decide) with ⟨c, f', hins, rfl, heq, _⟩
  exact ⟨hsize, f', hins, heq.2 (by decide +kernel)⟩

end TwoCnf
