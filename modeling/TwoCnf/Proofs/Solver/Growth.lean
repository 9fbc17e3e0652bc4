import TwoCnf.Proofs.Component.Condensation
import TwoCnf.Proofs.Formula.Growth
import TwoCnf.Proofs.Solver.Decision
import TwoCnf.Proofs.Solver.Session

/-!
# Growth — analyses from two points of a run

An analysis that was taken earlier describes fewer clauses than one that is taken later. What it says stays
true, and the two can be told apart only by variables that are new.

* `Analysis.GrowsTo` — what an earlier analysis shares with a later one;
* `Formula.Precedes.exists_condensation` — the earlier graph is condensed by the later components, and the
  order of these is respected;
* `Formula.Precedes.exists_uncovered_iff` — the later graph has an edge outside the earlier components
  exactly if there is a new variable;
* `growth_monotone` — all this for the answers at two points of any run.
-/

namespace TwoCnf

/-! ## Two formulas -/

namespace Formula.Precedes

variable {f f' : Formula} {p p' : Partition}

theorem satisfiable (h : f.Precedes f') (hsat : Satisfiable f'.clauses.toList) :
    Satisfiable f.clauses.toList := by
  rcases hsat with ⟨v, hv⟩
  exact ⟨v, fun c hc => hv c (h.clauses.subset hc)⟩

/-- Literals of one component stay together. -/
theorem together (h : f.Precedes f') (hf : f.Coherent) (hf' : f'.Coherent)
    (hg : f.graph.WellFormed) (hg' : f'.graph.WellFormed) (hp : p.StrongFor f.graph)
    (hp' : p'.StrongFor f'.graph) {l m : Lit} {i : Nat} (hl : p.componentOf? l = some i)
    (hm : p.componentOf? m = some i) :
    ∃ j, p'.componentOf? l = some j ∧ p'.componentOf? m = some j := by
  rcases hp.exists_mutual hg hl hm with ⟨u, w, hu, hw, huw, hwu⟩
  -- both vertices and both paths are still there
  rcases hg'.vertexOf?_eq_some_iff.1 (h.vertexOf? hf hf' hu) with ⟨hult, hlname⟩
  rcases hg'.vertexOf?_eq_some_iff.1 (h.vertexOf? hf hf' hw) with ⟨hwlt, hmname⟩
  rcases hp'.exists_number u hult with ⟨j, hj⟩
  have hsame := (hp'.same_iff u w hult hwlt).2 ⟨h.reaches huw, h.reaches hwu⟩
  rw [hlname, hmname] at hsame
  rw [hlname] at hj
  exact ⟨j, hj, hsame ▸ hj⟩

/-- The earlier graph has a condensation by the later components, whose edges lead to components that were
closed earlier. -/
theorem exists_condensation (h : f.Precedes f') (hf : f.Coherent) (hf' : f'.Coherent)
    (hsize : f'.numbering.size < UInt32.size) (hp' : p'.StrongFor f'.graph) :
    ∃ rows, condensation f.graph p' = .ok rows ∧ rows.size = p'.size ∧
      ∀ i j, RowEdge rows i j → j < i := by
  have hsize₀ : f.numbering.size < UInt32.size := Nat.lt_of_le_of_lt h.size_le hsize
  have hrep' := hf'.represents (hf'.wellFormed_graph hsize) hp'
  rcases (hf.wellFormed_graph hsize₀).exists_edges with ⟨es, hes, _⟩
  have hmem := hf.mem_edges_iff hsize₀ hes
  -- an edge comes from a clause, which is among the later ones too
  have hcovers : ∀ e ∈ es, p'.covers e = true := by
    rintro ⟨l, m⟩ he
    rcases (hmem l m).1 he with ⟨c, hc, himplies⟩
    have hnumber : ∀ k : Lit, c.Mentions k.var → ∃ i, p'.componentOf? k = some i := by
      intro k hk
      exact (hrep'.exists_number_iff k).2 ((hf'.contains_iff k).2 ⟨c, h.mem_clauses hc, hk⟩)
    exact Partition.covers_iff.2 ⟨hnumber l himplies.mentions.1, hnumber m himplies.mentions.2⟩
  rcases Partition.exists_condensed hp'.tidy (Nat.lt_of_le_of_lt hp'.size_le hsize) hcovers with
    ⟨rows, hfold, hrows⟩
  refine ⟨rows, bind_eq_ok.2 ⟨es, hes, hfold⟩, hrows.size_eq, ?_⟩
  rintro i _ ⟨row, hrow, id, hid, rfl⟩
  rcases (hrows.mem_iff i row id hrow).1 hid with ⟨hne, l, m, hlm, hl, hm⟩
  rcases (hmem l m).1 hlm with ⟨c, hc, himplies⟩
  have hle := hrep'.le_of_implies c (h.mem_clauses hc) l m i id.toNat himplies hl hm
  exact Nat.lt_of_le_of_ne hle hne.symm

/-- Some later edge is not covered by the earlier components exactly if there is a new vertex. -/
theorem exists_uncovered_iff (h : f.Precedes f') (hf : f.Built) (hf' : f'.Built)
    (hsize : f'.numbering.size < UInt32.size) (hp : p.Represents f) {es : List (Lit × Lit)}
    (hes : f'.graph.edges = .ok es) :
    (∃ e ∈ es, p.covers e = false) ↔ f.numbering.size < f'.numbering.size := by
  have hmem := (hf'.coherent hsize).mem_edges_iff hsize hes
  have hcovers : ∀ e : Lit × Lit, p.covers e = true ↔
      (∃ c ∈ f.clauses, c.Mentions e.1.var) ∧ ∃ c ∈ f.clauses, c.Mentions e.2.var := by
    intro e
    rw [Partition.covers_iff, hp.exists_number_iff, hp.exists_number_iff, hf.contains_iff,
      hf.contains_iff]
  rw [h.size_lt_iff hf hf']
  constructor
  · rintro ⟨⟨l, m⟩, he, hout⟩
    rcases (hmem l m).1 he with ⟨c, hc, himplies⟩
    rw [← Bool.not_eq_true, hcovers, not_and_or] at hout
    rcases hout with hl | hm
    · exact ⟨l.var, ⟨c, hc, himplies.mentions.1⟩, hl⟩
    · exact ⟨m.var, ⟨c, hc, himplies.mentions.2⟩, hm⟩
  · rintro ⟨x, ⟨c, hc, hmentions⟩, hnew⟩
    -- the variable stands in one of the two literals, and the negation of that literal implies the other
    rcases hmentions with rfl | rfl
    · refine ⟨(c.left.neg, c.right), (hmem _ _).2 ⟨c, hc, Or.inl ⟨rfl, rfl⟩⟩, ?_⟩
      rw [← Bool.not_eq_true, hcovers]
      exact fun hboth => hnew hboth.1
    · refine ⟨(c.right.neg, c.left), (hmem _ _).2 ⟨c, hc, Or.inr ⟨rfl, rfl⟩⟩, ?_⟩
      rw [← Bool.not_eq_true, hcovers]
      exact fun hboth => hnew hboth.1

end Formula.Precedes

/-! ## Two analyses -/

/-- What an earlier analysis shares with a later one. Literals and successors keep their places, and
literals of one component stay together. The earlier graph has a condensation by the later components, in
which edges lead to components that were closed earlier. The later graph has a condensation by the earlier
components unless it has more vertices. The first edge with an end outside these components is the fault. -/
structure Analysis.GrowsTo (a b : Analysis) : Prop where
  lits : a.graph.numbering.lits.toList <+: b.graph.numbering.lits.toList
  vertexOf? : ∀ l v, a.graph.vertexOf? l = some v → b.graph.vertexOf? l = some v
  successors : ∀ v : UInt32, v.toNat < a.graph.numVertices →
    ∃ ws ws', a.graph.successors v = .ok ws ∧ b.graph.successors v = .ok ws' ∧ ws <+: ws'
  together : ∀ l m i, a.partition.componentOf? l = some i → a.partition.componentOf? m = some i →
    ∃ j, b.partition.componentOf? l = some j ∧ b.partition.componentOf? m = some j
  earlierByLater : ∃ rows, condensation a.graph b.partition = .ok rows ∧
    rows.size = b.partition.size ∧ ∀ i j, RowEdge rows i j → j < i
  laterByEarlier : (∃ fault, condensation b.graph a.partition = .error fault) ↔
    a.graph.numVertices < b.graph.numVertices
  firstOutside : ∀ fault, condensation b.graph a.partition = .error fault →
    ∃ edges edge, b.graph.edges = .ok edges ∧
      edges.find? (fun e => !a.partition.covers e) = some edge ∧
      fault = .edgeOutside edge.1 edge.2

theorem Formula.Precedes.growsTo {f f' : Formula} (h : f.Precedes f') (hf : f.Built) (hf' : f'.Built)
    (hsize : f'.numbering.size < UInt32.size) {a b : Analysis} (ha : f.analyse = .ok a)
    (hb : f'.analyse = .ok b) : a.GrowsTo b := by
  have hsize₀ : f.numbering.size < UInt32.size := Nat.lt_of_le_of_lt h.size_le hsize
  have hcoherent := hf.coherent hsize₀
  have hcoherent' := hf'.coherent hsize
  have hg := hcoherent.wellFormed_graph hsize₀
  have hg' := hcoherent'.wellFormed_graph hsize
  rcases a with ⟨_, p⟩
  rcases b with ⟨_, p'⟩
  rcases Formula.analyse_eq_ok.1 ha with ⟨rfl, hp⟩
  rcases Formula.analyse_eq_ok.1 hb with ⟨rfl, hp'⟩
  have hstrong := hg.strongFor hp
  have hstrong' := hg'.strongFor hp'
  have hsizep : p.size < UInt32.size := Nat.lt_of_le_of_lt hstrong.size_le hsize₀
  rcases hg'.exists_edges with ⟨es, hes, _⟩
  exact
    { lits := h.lits
      vertexOf? := fun _ _ hv => h.vertexOf? hcoherent hcoherent' hv
      successors := by
        intro v hv
        refine h.successors ?_
        rw [hf.indexed.rows_size]
        exact hv
      together := fun _ _ _ hl hm => h.together hcoherent hcoherent' hg hg' hstrong hstrong' hl hm
      earlierByLater := h.exists_condensation hcoherent hcoherent' hsize hstrong'
      laterByEarlier := (Partition.exists_fault_iff hstrong.tidy hsizep hes).trans
        (h.exists_uncovered_iff hf hf' hsize (hcoherent.represents hg hstrong) hes)
      firstOutside := by
        intro fault hcondensation
        rcases (Partition.condensation_eq_error_iff hstrong.tidy hsizep hes).1 hcondensation with
          ⟨e, he, heq⟩
        exact ⟨es, e, hes, he, heq⟩ }

/-! ## Two points of a run -/

theorem Solver.precedes_ofHalves_append (clauses more : List (Int32 × Int32)) :
    (ofHalves clauses).formula.Precedes (ofHalves (clauses ++ more)).formula := by
  induction more using List.reverseRecOn with
  | nil =>
      rw [List.append_nil]
      exact Formula.Precedes.refl _
  | append_singleton more halves ih =>
      rw [← List.append_assoc, ofHalves_snoc]
      exact ih.trans (Formula.precedes_insert _ _)

/-- Two points of a run from any start, with fewer than `4294967296` vertices at the later one. Both have
a graph and components, and the earlier analysis grows to the later one. A problem without a model stays
so, and there are more vertices exactly if a variable is new. -/
theorem growth_monotone {start s t : Solver} {given : List (Int32 × Int32)}
    {ops more : List Solver.Operation} (hstart : Solver.Starts start given)
    (hs : (start.performAll ops).2 = s) (ht : (s.performAll more).2 = t)
    (hsize : t.formula.graph.numVertices < UInt32.size) :
    ∃ (a b : Analysis) (sat sat' : Bool), (s.perform .graph).1 = .graph a.graph ∧
      (s.perform .partition).1 = .partition a.partition ∧
      (s.perform .isSatisfiable).1 = .satisfiable sat ∧
      (t.perform .graph).1 = .graph b.graph ∧
      (t.perform .partition).1 = .partition b.partition ∧
      (t.perform .isSatisfiable).1 = .satisfiable sat' ∧
      a.GrowsTo b ∧ (sat = false → sat' = false) ∧
      (a.graph.numVertices < b.graph.numVertices ↔
        ∃ x ∈ varsOf (more.flatMap Solver.Operation.accepted),
          x ∉ varsOf (given ++ ops.flatMap Solver.Operation.accepted)) := by
  have hearlier := hstart.reflects_performAll hs
  have hlater : t.Reflects (given ++ ops.flatMap Solver.Operation.accepted ++
      more.flatMap Solver.Operation.accepted) := by
    rw [← ht]
    exact hearlier.performAll more
  have hprecedes : s.formula.Precedes t.formula := by
    rw [hearlier.formula, hlater.formula]
    exact Solver.precedes_ofHalves_append _ _
  have hbuilt := hearlier.built
  have hbuilt' := hlater.built
  have hsize₀ := Nat.lt_of_le_of_lt hprecedes.size_le hsize
  rcases hearlier.exists_answers hsize₀ with ⟨a, ha, hrep, hreads⟩
  rcases hlater.exists_answers hsize with ⟨b, hb, hrep', hreads'⟩
  have hgraph := (Formula.analyse_eq_ok.1 ha).1
  have hgraph' := (Formula.analyse_eq_ok.1 hb).1
  refine ⟨a, b, a.partition.conflict?.isNone, b.partition.conflict?.isNone, hreads.graph,
    hreads.partition, hreads.isSatisfiable, hreads'.graph, hreads'.partition, hreads'.isSatisfiable,
    hprecedes.growsTo hbuilt hbuilt' hsize ha hb, ?_, ?_⟩
  · intro hunsat
    rw [Option.isNone_eq_false_iff, Option.isSome_iff_ne_none, Ne,
      Formula.conflict?_eq_none_iff hbuilt (hbuilt.coherent hsize₀) hrep] at hunsat
    rw [Option.isNone_eq_false_iff, Option.isSome_iff_ne_none, Ne,
      Formula.conflict?_eq_none_iff hbuilt' (hbuilt'.coherent hsize) hrep']
    exact fun hsat => hunsat (hprecedes.satisfiable hsat)
  · rw [hgraph, hgraph']
    show s.formula.numbering.size < t.formula.numbering.size ↔ _
    rw [hprecedes.size_lt_iff hbuilt hbuilt', hearlier.formula, hlater.formula]
    simp only [Solver.exists_mentions_iff, varsOf, List.flatMap_append, List.mem_append]
    constructor
    · rintro ⟨x, hx, hnew⟩
      exact ⟨x, hx.resolve_left hnew, hnew⟩
    · rintro ⟨x, hx, hnew⟩
      exact ⟨x, Or.inr hx, hnew⟩

theorem growth_by_new_variable :
    ∃ s t, (Solver.performAll .empty [.insert 1 2, .isSatisfiable]).2 = s ∧
      (s.performAll [.insert (-1) 3, .insert 0 7]).2 = t ∧
      t.formula.graph.numVertices < UInt32.size ∧
      ∃ a b : Analysis, (s.perform .partition).1 = .partition a.partition ∧
        (t.perform .graph).1 = .graph b.graph ∧ a.GrowsTo b ∧
        ∃ fault, condensation b.graph a.partition = .error fault := by
  obtain ⟨s, hs⟩ : ∃ s, (Solver.performAll .empty [.insert 1 2, .isSatisfiable]).2 = s := ⟨_, rfl⟩
  obtain ⟨t, ht⟩ : ∃ t, (s.performAll [.insert (-1) 3, .insert 0 7]).2 = t := ⟨_, rfl⟩
  have hsize : t.formula.graph.numVertices < UInt32.size := by
    rw [← ht, ← hs]
    decide +kernel
  rcases growth_monotone Solver.Starts.empty hs ht hsize with
    ⟨a, b, _, _, _, hpartition, _, hgraph, _, _, hgrows, _, hnew⟩
  exact ⟨s, t, hs, ht, hsize, a, b, hpartition, hgraph, hgrows,
    hgrows.laterByEarlier.2 (hnew.2 (by decide))⟩

end TwoCnf
