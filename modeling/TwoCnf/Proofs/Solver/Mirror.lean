import TwoCnf.Proofs.Component.Condensation
import TwoCnf.Proofs.Solver.Session

/-!
# Mirror — the negations of a component are a component

Every clause implies in both directions, so the graph looks the same from the negations, with all its edges
turned round. This goes on to paths, to components and to the graph between them.

* `Partition.Mirrors` — one component holds the negations of another;
* `Partition.Represents.mirrors_iff` — one literal tells which one does, so each component has one mirror
  (`Partition.Represents.existsUnique_mirrors`), whose mirror it is (`Partition.Mirrors.symm`);
* `Formula.Coherent.rowEdge_mirrors` — the condensation leads from one component to another only if it leads
  from the mirror of the other to that of the one;
* `components_mirrored` — all this for the components of any solver.
-/

namespace TwoCnf
namespace Partition

/-! ## Mirrors -/

/-- Component `j` holds the negations of the literals of component `i`, and nothing else. -/
def Mirrors (p : Partition) (i j : Nat) : Prop :=
  ∃ lits lits', p.component i = .ok lits ∧ p.component j = .ok lits' ∧
    lits'.Perm (lits.map Lit.neg)

variable {p : Partition} {f : Formula}

theorem Mirrors.symm {i j : Nat} (h : p.Mirrors i j) : p.Mirrors j i := by
  rcases h with ⟨lits, lits', hlits, hlits', hperm⟩
  refine ⟨lits', lits, hlits', hlits, ?_⟩
  have hback : (lits'.map Lit.neg).Perm ((lits.map Lit.neg).map Lit.neg) := hperm.map Lit.neg
  rw [List.map_map, (funext Lit.neg_neg : Lit.neg ∘ Lit.neg = id), List.map_id] at hback
  exact hback.symm

/-- If the negation of one literal of a component is in another, then all of them are, and no more. -/
theorem Represents.mirrors (hp : p.Represents f) {l : Lit} {i j : Nat}
    (hi : p.componentOf? l = some i) (hj : p.componentOf? l.neg = some j) : p.Mirrors i j := by
  rcases (hp.tidy.componentOf?_eq_some l i).1 hi with ⟨lits, hlits, _⟩
  rcases (hp.tidy.componentOf?_eq_some l.neg j).1 hj with ⟨lits', hlits', _⟩
  have hnodup := hp.tidy.nodup lits (Array.mem_of_getElem? (entry_eq_ok.1 hlits))
  have hnodup' := hp.tidy.nodup lits' (Array.mem_of_getElem? (entry_eq_ok.1 hlits'))
  have hneg : (lits.map Lit.neg).Nodup := by
    refine hnodup.map_on ?_
    intro m _ m' _ heq
    rw [← Lit.neg_neg m, heq, Lit.neg_neg]
  refine ⟨lits, lits', hlits, hlits', (List.perm_ext_iff_of_nodup hnodup' hneg).2 ?_⟩
  intro m
  rw [hp.tidy.mem_iff hlits', List.mem_map]
  constructor
  · intro hm
    refine ⟨m.neg, (hp.tidy.mem_iff hlits _).2 ?_, Lit.neg_neg m⟩
    rw [hp.neg_eq m l.neg j hm hj, Lit.neg_neg]
    exact hi
  · rintro ⟨k, hk, rfl⟩
    rw [hp.neg_eq k l i ((hp.tidy.mem_iff hlits k).1 hk) hi]
    exact hj

theorem Represents.mirrors_iff (hp : p.Represents f) {l : Lit} {i j : Nat}
    (hi : p.componentOf? l = some i) : p.Mirrors i j ↔ p.componentOf? l.neg = some j := by
  constructor
  · rintro ⟨lits, lits', hlits, hlits', hperm⟩
    apply (hp.tidy.mem_iff hlits' l.neg).1
    exact hperm.mem_iff.2 (List.mem_map_of_mem ((hp.tidy.mem_iff hlits l).2 hi))
  · exact hp.mirrors hi

/-- Every component has one mirror. -/
theorem Represents.existsUnique_mirrors (hp : p.Represents f) (hf : f.Coherent) {i : Nat}
    (hi : i < p.size) : ∃! j, p.Mirrors i j := by
  rcases hp.tidy.exists_mem hi with ⟨l, hl⟩
  rcases hp.exists_neg hf hl with ⟨j, hj⟩
  refine ⟨j, hp.mirrors hl hj, ?_⟩
  intro j' hj'
  rw [hp.mirrors_iff hl, hj] at hj'
  exact (Option.some.inj hj').symm

theorem Mirrors.lt_size {i j : Nat} (h : p.Mirrors i j) : i < p.size := by
  rcases h with ⟨_, _, hlits, _, _⟩
  exact (Array.getElem?_eq_some_iff.1 (entry_eq_ok.1 hlits)).1

end Partition

/-! ## The condensation from the negations -/

/-- The condensation leads from one component to another along an edge between their literals. -/
theorem Graph.WellFormed.rowEdge_iff_mem {g : Graph} {p : Partition} (hg : g.WellFormed)
    (hp : p.StrongFor g) {es : List (Lit × Lit)} {rows : Array Row} (hes : g.edges = .ok es)
    (hrows : p.Condensed es rows) {i j : Nat} : RowEdge rows i j ↔
      i ≠ j ∧ ∃ l m, (l, m) ∈ es ∧ p.componentOf? l = some i ∧ p.componentOf? m = some j := by
  rcases hg.exists_edges with ⟨es', hes', hmem⟩
  rw [hes] at hes'
  cases hes'
  rw [hg.rowEdge_iff hp hes hrows]
  constructor
  · rintro ⟨hne, u, v, hu, hv, huv, hi, hj⟩
    exact ⟨hne, _, _, (hmem _ _).2 ⟨u, v, hu, hv, huv, rfl, rfl⟩, hi, hj⟩
  · rintro ⟨hne, l, m, hlm, hi, hj⟩
    rcases (hmem l m).1 hlm with ⟨u, v, hu, hv, huv, rfl, rfl⟩
    exact ⟨hne, u, v, hu, hv, huv, hi, hj⟩

namespace Formula.Coherent

variable {f : Formula} {p : Partition}

/-- With an edge, the graph has the edge between the negations the other way round. -/
theorem mem_edges_neg (hf : f.Coherent) (hsize : f.numbering.size < UInt32.size)
    {es : List (Lit × Lit)} (hes : f.graph.edges = .ok es) {l m : Lit} (h : (l, m) ∈ es) :
    (m.neg, l.neg) ∈ es := by
  rw [hf.mem_edges_iff hsize hes] at h ⊢
  rcases h with ⟨c, hc, himplies⟩
  exact ⟨c, hc, himplies.contrapositive⟩

/-- The mirrors turn an edge of the condensation round. -/
theorem rowEdge_mirrors (hf : f.Coherent) (hsize : f.numbering.size < UInt32.size)
    (hp : p.StrongFor f.graph) {es : List (Lit × Lit)} {rows : Array Row}
    (hes : f.graph.edges = .ok es) (hrows : p.Condensed es rows) {i j i' j' : Nat}
    (hi : p.Mirrors i i') (hj : p.Mirrors j j') (h : RowEdge rows i j) : RowEdge rows j' i' := by
  have hg := hf.wellFormed_graph hsize
  have hrep := hf.represents hg hp
  rw [hg.rowEdge_iff_mem hp hes hrows] at h ⊢
  rcases h with ⟨hne, l, m, hlm, hl, hm⟩
  refine ⟨?_, m.neg, l.neg, hf.mem_edges_neg hsize hes hlm, (hrep.mirrors_iff hm).1 hj,
    (hrep.mirrors_iff hl).1 hi⟩
  -- components with one mirror are the mirror of that one, and so the same
  rintro rfl
  exact hne ((hrep.existsUnique_mirrors hf hi.symm.lt_size).unique hi.symm hj.symm)

theorem rowEdge_mirrors_iff (hf : f.Coherent) (hsize : f.numbering.size < UInt32.size)
    (hp : p.StrongFor f.graph) {es : List (Lit × Lit)} {rows : Array Row}
    (hes : f.graph.edges = .ok es) (hrows : p.Condensed es rows) {i j i' j' : Nat}
    (hi : p.Mirrors i i') (hj : p.Mirrors j j') : RowEdge rows i j ↔ RowEdge rows j' i' :=
  ⟨hf.rowEdge_mirrors hsize hp hes hrows hi hj,
    hf.rowEdge_mirrors hsize hp hes hrows hj.symm hi.symm⟩

end Formula.Coherent

/-! ## Solvers -/

/-- With fewer vertices than numbers, the questions are answered from the graph of the formula and its
strongly connected components. -/
theorem Solver.Reflects.exists_strong {s : Solver} {clauses : List (Int32 × Int32)}
    (h : s.Reflects clauses) (hsize : s.formula.numbering.size < UInt32.size) :
    ∃ p, s.AnswersFrom ⟨s.formula.graph, p⟩ ∧ p.StrongFor s.formula.graph ∧
      p.Represents s.formula := by
  have hcoherent := h.built.coherent hsize
  have hg := hcoherent.wellFormed_graph hsize
  rcases hg.exists_partition with ⟨p, hp, hstrong⟩
  exact ⟨p, h.answersFrom (Formula.analyse_eq_ok.2 ⟨rfl, hp⟩), hstrong,
    hcoherent.represents hg hstrong⟩

/-- A solver at any point of a run from any start, with fewer than `4294967296` vertices. The negations of
each of its components are a component, which is its mirror; the condensation leads from one component to
another exactly if it leads from the mirror of the other to the mirror of the one; and a component has a
literal in common with its mirror exactly if it is its mirror. -/
theorem components_mirrored {start s : Solver} {given : List (Int32 × Int32)}
    {ops : List Solver.Operation} (hstart : Solver.Starts start given)
    (hs : (start.performAll ops).2 = s) (hsize : s.formula.graph.numVertices < UInt32.size) :
    ∃ g p rows, (s.perform .graph).1 = .graph g ∧ (s.perform .partition).1 = .partition p ∧
      condensation g p = .ok rows ∧
      (∀ i, i < p.size → ∃! j, p.Mirrors i j) ∧
      (∀ i j i' j', p.Mirrors i i' → p.Mirrors j j' → (RowEdge rows i j ↔ RowEdge rows j' i')) ∧
      (∀ i j lits lits', p.Mirrors i j → p.component i = .ok lits → p.component j = .ok lits' →
        ((∃ l, l ∈ lits ∧ l ∈ lits') ↔ i = j)) := by
  have hreflects := hstart.reflects_performAll hs
  have hcoherent := hreflects.built.coherent hsize
  rcases hreflects.exists_strong hsize with ⟨p, hanswers, hstrong, hrep⟩
  rcases (hcoherent.wellFormed_graph hsize).exists_condensation hstrong with
    ⟨es, rows, hes, hcondensation, hrows⟩
  refine ⟨s.formula.graph, p, rows, hanswers.graph, hanswers.partition, hcondensation, ?_, ?_, ?_⟩
  · intro i hi
    exact hrep.existsUnique_mirrors hcoherent hi
  · intro i j i' j' hi hj
    exact hcoherent.rowEdge_mirrors_iff hsize hstrong hes hrows hi hj
  · intro i j lits lits' _ hlits hlits'
    exact hrep.tidy.meet_iff hlits hlits'

/-- The variables `1` and `2` imply each other and a third one. The components are those of `3`, of `1` and
`2`, and their mirrors. -/
theorem components_mirrored_loopWithExit :
    ∃ s, (Solver.performAll .empty [.insert 1 (-2), .partition, .insert 2 (-1), .insert (-1) 3]).2 = s ∧
      s.formula.graph.numVertices < UInt32.size ∧
      ∃ g p rows, (s.perform .graph).1 = .graph g ∧ (s.perform .partition).1 = .partition p ∧
        condensation g p = .ok rows ∧ p.size = 4 ∧ (∀ i, i < 4 → ∃! j, p.Mirrors i j) ∧
        ∀ i j i' j', p.Mirrors i i' → p.Mirrors j j' → (RowEdge rows i j ↔ RowEdge rows j' i') := by
  obtain ⟨s, hs⟩ : ∃ s, (Solver.performAll .empty
      [.insert 1 (-2), .partition, .insert 2 (-1), .insert (-1) 3]).2 = s := ⟨_, rfl⟩
  have hsize : s.formula.graph.numVertices < UInt32.size := by
    rw [← hs]
    decide +kernel
  rcases components_mirrored Solver.Starts.empty hs hsize with
    ⟨g, p, rows, hgraph, hpartition, hcondensation, hmirrors, hedges, _⟩
  have hfour : p.size = 4 := by
    have hcount : (match (s.perform .partition).1 with
        | .partition q => q.size
        | _ => 0) = 4 := by
      rw [← hs]
      decide +kernel
    rw [hpartition] at hcount
    exact hcount
  rw [hfour] at hmirrors
  exact ⟨s, hs, hsize, g, p, rows, hgraph, hpartition, hcondensation, hfour, hmirrors, hedges⟩

end TwoCnf
