import Mathlib.Data.Sym.Sym2
import TwoCnf.Proofs.Component.Portrait
import TwoCnf.Proofs.Solver.Decision

/-!
# Unordered — order and repetition of clauses do not matter

The order in which clauses and their halves are listed decides which number a literal gets, and with that
the course of the search. None of this shows in what the numbers stand for.

* `unordered` — the clauses of a list, as sets of halves;
* `Restates` — each clause of one list is a clause of the other, perhaps with its literals exchanged. Then
  the other list forces, entails and excludes at least as much;
* `View.Similar` — the same literals, edges, components and condensation, whatever their numbers;
* `Shows` — what the questions about a list of clauses lead to;
* `clauses_unordered` — lists with the same unordered clauses show similar views.
-/

namespace TwoCnf

/-! ## Lists that restate each other -/

/-- The clauses of a list, as sets of halves. -/
def unordered (clauses : List (Int32 × Int32)) : Finset (Sym2 Int32) :=
  (clauses.map fun halves => s(halves.1, halves.2)).toFinset

/-- The same disjunction, told the other way round. -/
def Clause.flip (c : Clause) : Clause :=
  ⟨c.right, c.left⟩

theorem Clause.flip_implies {c : Clause} {l m : Lit} : c.flip.Implies l m ↔ c.Implies l m :=
  or_comm

theorem Clause.flip_mentions {c : Clause} {x : UInt32} : c.flip.Mentions x ↔ c.Mentions x :=
  or_comm

theorem Clause.isTrueIn_flip (c : Clause) (v : Valuation) : c.flip.isTrueIn v = c.isTrueIn v :=
  Bool.or_comm _ _

/-- Each clause of `cs` is a clause of `ds`, perhaps with its literals exchanged. -/
def Restates (cs ds : List Clause) : Prop :=
  ∀ c ∈ cs, c ∈ ds ∨ c.flip ∈ ds

namespace Restates

variable {cs ds : List Clause}

theorem mentions (h : Restates cs ds) {x : UInt32} (hx : ∃ c ∈ cs, c.Mentions x) :
    ∃ d ∈ ds, d.Mentions x := by
  rcases hx with ⟨c, hc, hmentions⟩
  rcases h c hc with hsame | hflip
  · exact ⟨c, hsame, hmentions⟩
  · exact ⟨c.flip, hflip, Clause.flip_mentions.2 hmentions⟩

theorem forces (h : Restates cs ds) {l m : Lit} (hforces : Forces cs l m) : Forces ds l m := by
  rcases hforces with ⟨c, hc, himplies⟩
  rcases h c hc with hsame | hflip
  · exact ⟨c, hsame, himplies⟩
  · exact ⟨c.flip, hflip, Clause.flip_implies.2 himplies⟩

theorem entails (h : Restates cs ds) {l m : Lit} (hentails : Entails cs l m) : Entails ds l m :=
  Relation.ReflTransGen.mono (fun _ _ => h.forces) l m hentails

theorem satisfiable (h : Restates cs ds) (hsat : Satisfiable ds) : Satisfiable cs := by
  rcases hsat with ⟨v, hv⟩
  refine ⟨v, ?_⟩
  intro c hc
  rcases h c hc with hsame | hflip
  · exact hv c hsame
  · rw [← Clause.isTrueIn_flip]
    exact hv c.flip hflip

end Restates

theorem mem_of_unordered_eq {cs ds : List (Int32 × Int32)} (h : unordered cs = unordered ds)
    {halves : Int32 × Int32} (hmem : halves ∈ cs) : halves ∈ ds ∨ halves.swap ∈ ds := by
  have hcs : s(halves.1, halves.2) ∈ unordered cs :=
    List.mem_toFinset.2 (List.mem_map.2 ⟨halves, hmem, rfl⟩)
  rw [h] at hcs
  rcases List.mem_map.1 (List.mem_toFinset.1 hcs) with ⟨other, hother, heq⟩
  rcases Sym2.eq_iff.1 heq with ⟨hfirst, hsecond⟩ | ⟨hfirst, hsecond⟩
  · exact Or.inl (Prod.ext hfirst hsecond ▸ hother)
  · exact Or.inr ((Prod.ext hfirst hsecond : other = halves.swap) ▸ hother)

theorem restates_of_unordered_eq {cs ds : List (Int32 × Int32)} (h : unordered cs = unordered ds) :
    Restates (cs.map Clause.ofHalves) (ds.map Clause.ofHalves) := by
  intro c hc
  rcases List.mem_map.1 hc with ⟨halves, hhalves, rfl⟩
  rcases mem_of_unordered_eq h hhalves with hsame | hswap
  · exact Or.inl (List.mem_map_of_mem hsame)
  · exact Or.inr (List.mem_map.2 ⟨halves.swap, hswap, rfl⟩)

/-! ## Views that restated clauses lead to -/

/-- The same literals, edges, components and condensation, whatever their numbers. -/
structure View.Similar (q r : View) : Prop where
  vertices : ∀ l, (q.graph.vertexOf? l).isSome = true ↔ (r.graph.vertexOf? l).isSome = true
  edges : ∀ l m, (l, m) ∈ q.edges ↔ (l, m) ∈ r.edges
  groups : q.groups = r.groups
  leads : ∀ A B, q.Leads A B ↔ r.Leads A B

theorem View.Depicts.similar {q r : View} {cs ds : List Clause} (hq : q.Depicts cs)
    (hr : r.Depicts ds) (hcd : Restates cs ds) (hdc : Restates ds cs) : q.Similar r := by
  -- all that the views depict is told by what is mentioned, forced and entailed
  have hmentions : ∀ x, (∃ c ∈ cs, c.Mentions x) ↔ ∃ c ∈ ds, c.Mentions x :=
    fun x => ⟨hcd.mentions, hdc.mentions⟩
  have hforces : ∀ l m, Forces cs l m ↔ Forces ds l m := fun l m => ⟨hcd.forces, hdc.forces⟩
  have hentails : ∀ l m, Entails cs l m ↔ Entails ds l m := fun l m => ⟨hcd.entails, hdc.entails⟩
  have hgroups : q.groups = r.groups := by
    ext A
    rw [hq.group_iff, hr.group_iff]
    simp only [hmentions, hentails]
  refine ⟨?_, ?_, hgroups, ?_⟩
  · intro l
    rw [hq.vertex_iff, hr.vertex_iff, hmentions]
  · intro l m
    rw [hq.edge_iff, hr.edge_iff, hforces]
  · intro A B
    rw [hq.leads_iff, hr.leads_iff, hgroups]
    simp only [hforces]

/-! ## The questions about a list of clauses -/

/-- What the questions about a list of clauses lead to: a view, and whether the clauses are
satisfiable. -/
structure Shows (clauses : List (Int32 × Int32)) (q : View) (sat : Bool) : Prop where
  graph : Solver.answer? Solver.graph clauses = some q.graph
  partition : Solver.answer? Solver.partition clauses = some q.partition
  exact : q.Exact
  isSatisfiable : Solver.answer? Solver.isSatisfiable clauses = some sat

theorem exists_shows {clauses : List (Int32 × Int32)}
    (hz : ∀ halves ∈ clauses, halves.1 ≠ 0 ∧ halves.2 ≠ 0)
    (hvars : (varsOf clauses).toFinset.card < 2147483648) :
    ∃ q sat, Shows clauses q sat ∧ q.Depicts (clauses.map Clause.ofHalves) ∧
      (sat = true ↔ Satisfiable (clauses.map Clause.ofHalves)) := by
  have hbuilt := Solver.built_ofHalves hz
  have hsize := Solver.size_ofHalves_lt hz hvars
  have hcoherent := hbuilt.coherent hsize
  rcases Solver.exists_answers hz hsize with ⟨a, hgraph, hpartition, hrep, hanswer⟩
  rcases hcoherent.exists_view hsize with ⟨q, hq, hexact, hdepicts⟩
  -- the view is that of the analysis
  have hsame : q.partition = a.partition := by
    have hfound := hexact.partition
    rw [hq, ← hgraph, hpartition] at hfound
    exact (Except.ok.inj hfound).symm
  rw [Solver.clauses_ofHalves] at hdepicts
  refine ⟨q, a.partition.conflict?.isNone, ⟨?_, ?_, hexact, ?_⟩, hdepicts, ?_⟩
  · rw [hq, ← hgraph]
    exact hanswer (Solver.graph_eq _)
  · rw [hsame]
    exact hanswer (Solver.partition_eq _)
  · exact hanswer (Solver.isSatisfiable_eq _)
  · rw [Option.isNone_iff_eq_none, Formula.conflict?_eq_none_iff hbuilt hcoherent hrep,
      Solver.clauses_ofHalves]

/-- Lists with the same clauses, in whichever order, however often, and with their halves in whichever
order, show similar views and the same satisfiability. -/
theorem exists_similar {cs ds : List (Int32 × Int32)}
    (hz : ∀ halves ∈ cs, halves.1 ≠ 0 ∧ halves.2 ≠ 0)
    (hvars : (varsOf cs).toFinset.card < 2147483648) (h : unordered cs = unordered ds) :
    ∃ q r sat, Shows cs q sat ∧ Shows ds r sat ∧ q.Similar r := by
  have hcd := restates_of_unordered_eq h
  have hdc := restates_of_unordered_eq h.symm
  -- the other list has no zero half either, and the same variables
  have hz' : ∀ halves ∈ ds, halves.1 ≠ 0 ∧ halves.2 ≠ 0 := by
    intro halves hhalves
    rcases mem_of_unordered_eq h.symm hhalves with hsame | hswap
    · exact hz halves hsame
    · exact (hz _ hswap).symm
  have hvars' : (varsOf ds).toFinset.card < 2147483648 := by
    refine Nat.lt_of_le_of_lt (Finset.card_le_card ?_) hvars
    intro x hx
    rw [List.mem_toFinset, mem_varsOf] at hx ⊢
    rcases hx with ⟨halves, hhalves, hmentions⟩
    rcases mem_of_unordered_eq h.symm hhalves with hsame | hswap
    · exact ⟨halves, hsame, hmentions⟩
    · exact ⟨halves.swap, hswap, Clause.flip_mentions.2 hmentions⟩
  rcases exists_shows hz hvars with ⟨q, sat, hq, hdepicts, hsat⟩
  rcases exists_shows hz' hvars' with ⟨r, sat', hr, hdepicts', hsat'⟩
  have hsame : sat = sat' := by
    rw [Bool.eq_iff_iff, hsat, hsat']
    exact ⟨hdc.satisfiable, hcd.satisfiable⟩
  subst hsame
  exact ⟨q, r, sat, hq, hr, hdepicts.similar hdepicts' hcd hdc⟩

/-- Of a list of clauses over fewer than `2147483648` variables, only the set of its unordered clauses
counts for the literals with a vertex, the edges between them, the components, the condensation between
components and satisfiability. It does not decide the numbers of the literals, the order of the components,
the model or the conflict. -/
theorem clauses_unordered :
    (∀ cs ds : List (Int32 × Int32), (∀ halves ∈ cs, halves.1 ≠ 0 ∧ halves.2 ≠ 0) →
      (varsOf cs).toFinset.card < 2147483648 → unordered cs = unordered ds →
      ∃ q r sat, Shows cs q sat ∧ Shows ds r sat ∧ q.Similar r) ∧
    (∃ cs ds, unordered cs = unordered ds ∧
      (∃ l i i', (Solver.answer? Solver.graph cs).map (·.vertexOf? l) = some (some i) ∧
        (Solver.answer? Solver.graph ds).map (·.vertexOf? l) = some (some i') ∧ i ≠ i') ∧
      (∃ order order', (Solver.answer? Solver.partition cs).map (·.components) = some order ∧
        (Solver.answer? Solver.partition ds).map (·.components) = some order' ∧ order ≠ order') ∧
      ∃ values values', (Solver.answer? Solver.model? cs).map (·.map Model.entries) = some (some values) ∧
        (Solver.answer? Solver.model? ds).map (·.map Model.entries) = some (some values') ∧
        values ≠ values') ∧
    ∃ cs ds x y, unordered cs = unordered ds ∧ Solver.answer? Solver.conflict? cs = some (some x) ∧
      Solver.answer? Solver.conflict? ds = some (some y) ∧ x ≠ y := by
  refine ⟨fun cs ds hz hvars h => exists_similar hz hvars h, ?_, ?_⟩
  · refine ⟨[(1, 2), (-1, -2)], [(2, 1), (-2, -1)], by decide +kernel, ?_, ?_, ?_⟩
    · exact ⟨⟨1, true⟩, 0, 2, by decide +kernel⟩
    · exact ⟨#[[⟨2, false⟩, ⟨1, true⟩], [⟨2, true⟩, ⟨1, false⟩]],
        #[[⟨1, false⟩, ⟨2, true⟩], [⟨1, true⟩, ⟨2, false⟩]], by decide +kernel⟩
    · exact ⟨[(1, true), (2, false)], [(1, false), (2, true)], by decide +kernel⟩
  · exact ⟨[(1, 1), (-1, -1), (2, 2), (-2, -2)], [(2, 2), (-2, -2), (1, 1), (-1, -1)], 1, 2,
      by decide +kernel⟩

theorem clauses_unordered_repeated :
    (∀ halves ∈ [((1 : Int32), (2 : Int32)), (-1, -2)], halves.1 ≠ 0 ∧ halves.2 ≠ 0) ∧
    (varsOf [(1, 2), (-1, -2)]).toFinset.card < 2147483648 ∧
    unordered [(1, 2), (-1, -2)] = unordered [(-2, -1), (2, 1), (1, 2)] ∧
    ∃ q r, Shows [(1, 2), (-1, -2)] q true ∧ Shows [(-2, -1), (2, 1), (1, 2)] r true ∧ q.Similar r := by
  have hz : ∀ halves ∈ [((1 : Int32), (2 : Int32)), (-1, -2)], halves.1 ≠ 0 ∧ halves.2 ≠ 0 := by
    simp only [List.forall_mem_cons, List.not_mem_nil, false_implies, implies_true, and_true]
    decide
  have hvars : (varsOf [(1, 2), (-1, -2)]).toFinset.card < 2147483648 := by decide +kernel
  have h : unordered [(1, 2), (-1, -2)] = unordered [(-2, -1), (2, 1), (1, 2)] := by decide +kernel
  rcases clauses_unordered.1 _ _ hz hvars h with ⟨q, r, sat, hq, hr, hsimilar⟩
  have hsat : Solver.answer? Solver.isSatisfiable [(1, 2), (-1, -2)] = some true := by decide +kernel
  rw [hq.isSatisfiable] at hsat
  cases hsat
  exact ⟨hz, hvars, h, q, r, hq, hr, hsimilar⟩

end TwoCnf
