import TwoCnf.Proofs.Component.StronglyConnected
import TwoCnf.Valuation

/-!
# Duality — components, negation and truth

The components of the graph of a formula, read as a grouping of its literals.

* `Entails.isTrueIn`, `Formula.Coherent.isTrueIn_of_reaches` — truth is carried to what is entailed, and
  along paths;
* `Partition.Represents` — the numbers of the literals follow the implications of the clauses,
  negations of equals are equals, and literals of one component are true together;
* `Formula.Built.exists_represents` — the search finds such components.
-/

namespace TwoCnf

/-! ## Truth along paths -/

theorem Clause.Implies.isTrueIn {c : Clause} {l m : Lit} {v : Valuation} (h : c.Implies l m)
    (hc : c.isTrueIn v = true) (hl : l.isTrueIn v = true) : m.isTrueIn v = true := by
  unfold Clause.isTrueIn at hc
  rcases h with ⟨rfl, rfl⟩ | ⟨rfl, rfl⟩
  · rw [Lit.isTrueIn_neg] at hl
    simp_all
  · rw [Lit.isTrueIn_neg] at hl
    simp_all

theorem Entails.isTrueIn {cs : List Clause} {l m : Lit} (h : Entails cs l m) {v : Valuation}
    (hv : ∀ c ∈ cs, c.isTrueIn v = true) (hl : l.isTrueIn v = true) : m.isTrueIn v = true := by
  induction h with
  | refl =>
      exact hl
  | tail _ hforces ih =>
      rcases hforces with ⟨c, hc, himplies⟩
      exact himplies.isTrueIn (hv c hc) ih

namespace Formula.Coherent

variable {f : Formula}

theorem isTrueIn_of_edge (hf : f.Coherent) {v : Valuation}
    (hv : ∀ c ∈ f.clauses, c.isTrueIn v = true) {u w : UInt32} {l m : Lit} (huw : f.graph.Edge u w)
    (hu : f.graph.vertexOf? l = some u) (hw : f.graph.vertexOf? m = some w)
    (hl : l.isTrueIn v = true) : m.isTrueIn v = true := by
  rcases (hf.edge_iff u w).1 huw with ⟨c, hc, l', m', himp, hl', hm'⟩
  rw [hf.eq_of_vertexOf? hu hl'] at hl
  rw [hf.eq_of_vertexOf? hw hm']
  exact himp.isTrueIn (hv c hc) hl

/-- A valuation that makes all clauses true carries the truth of a literal along every path. -/
theorem isTrueIn_of_reaches (hf : f.Coherent) {v : Valuation}
    (hv : ∀ c ∈ f.clauses, c.isTrueIn v = true) {u w : UInt32} {l m : Lit}
    (huw : f.graph.Reaches u w) (hu : f.graph.vertexOf? l = some u)
    (hw : f.graph.vertexOf? m = some w) (hl : l.isTrueIn v = true) : m.isTrueIn v = true := by
  induction huw generalizing m with
  | refl =>
      rw [hf.eq_of_vertexOf? hw hu]
      exact hl
  | @tail x w _ hxw ih =>
      -- the last edge starts at a literal, to which the truth has been carried already
      rcases (hf.edge_iff x w).1 hxw with ⟨_, _, k, _, _, hk, _⟩
      exact hf.isTrueIn_of_edge hv hxw hk hw (ih hk)

end Formula.Coherent

/-! ## Components as a grouping of literals -/

/-- The numbers of the literals of a formula. A number is at most that of a literal that implies it,
negations of literals with one number have one number, and literals with one number are true together
wherever the clauses are. -/
structure Partition.Represents (p : Partition) (f : Formula) : Prop where
  tidy : p.Tidy
  exists_number_iff : ∀ l, (∃ i, p.componentOf? l = some i) ↔ f.contains l = true
  le_of_implies : ∀ c ∈ f.clauses, ∀ l m i j, c.Implies l m →
    p.componentOf? l = some i → p.componentOf? m = some j → j ≤ i
  neg_eq : ∀ l m i, p.componentOf? l = some i → p.componentOf? m = some i →
    p.componentOf? l.neg = p.componentOf? m.neg
  isTrueIn_eq : ∀ l m i, p.componentOf? l = some i → p.componentOf? m = some i →
    ∀ v : Valuation, (∀ c ∈ f.clauses, c.isTrueIn v = true) → l.isTrueIn v = m.isTrueIn v

/-- Literals of one component stand at vertices that reach each other. -/
theorem Partition.StrongFor.exists_mutual {p : Partition} {g : Graph} (hp : p.StrongFor g)
    (hg : g.WellFormed) {l m : Lit} {i : Nat} (hl : p.componentOf? l = some i)
    (hm : p.componentOf? m = some i) :
    ∃ u w, g.vertexOf? l = some u ∧ g.vertexOf? m = some w ∧ g.Reaches u w ∧ g.Reaches w u := by
  rcases hp.exists_name l i hl with ⟨u, hu, rfl⟩
  rcases hp.exists_name m i hm with ⟨w, hw, rfl⟩
  have hmutual := (hp.same_iff u w hu hw).1 (hl.trans hm.symm)
  exact ⟨u, w, hg.vertexOf?_eq_some_iff.2 ⟨hu, rfl⟩, hg.vertexOf?_eq_some_iff.2 ⟨hw, rfl⟩, hmutual⟩

namespace Formula

theorem Coherent.represents {f : Formula} {p : Partition} (hf : f.Coherent)
    (hg : f.graph.WellFormed) (hp : p.StrongFor f.graph) : p.Represents f where
  tidy := hp.tidy
  exists_number_iff := by
    intro l
    unfold Formula.contains
    rw [Option.isSome_iff_exists]
    constructor
    · rintro ⟨i, hi⟩
      rcases hp.exists_name l i hi with ⟨v, hv⟩
      exact ⟨v, hg.vertexOf?_eq_some_iff.2 hv⟩
    · rintro ⟨v, hv⟩
      rcases hg.vertexOf?_eq_some_iff.1 hv with ⟨hlt, rfl⟩
      exact hp.exists_number v hlt
  le_of_implies := by
    intro c hc l m i j himp hi hj
    rcases hp.exists_name l i hi with ⟨u, hu, rfl⟩
    rcases hp.exists_name m j hj with ⟨w, hw, rfl⟩
    have hedge : f.graph.Edge u w :=
      (hf.edge_iff u w).2 ⟨c, hc, _, _, himp, hg.vertexOf?_eq_some_iff.2 ⟨hu, rfl⟩,
        hg.vertexOf?_eq_some_iff.2 ⟨hw, rfl⟩⟩
    exact hp.order u w i j hu hw hedge hi hj
  neg_eq := by
    intro l m i hi hj
    rcases hp.exists_mutual hg hi hj with ⟨u, w, hu, hw, huw, hwu⟩
    rcases hf.exists_vertexOf?_neg hu with ⟨u', hu'⟩
    rcases hf.exists_vertexOf?_neg hw with ⟨w', hw'⟩
    -- both paths turn round between the negations
    have hback : f.graph.Reaches w' u' := hf.reaches_neg huw hu hw hu' hw'
    have hforth : f.graph.Reaches u' w' := hf.reaches_neg hwu hw hu hw' hu'
    rcases hg.vertexOf?_eq_some_iff.1 hu' with ⟨hlt, hname⟩
    rcases hg.vertexOf?_eq_some_iff.1 hw' with ⟨hlt', hname'⟩
    rw [← hname, ← hname']
    exact (hp.same_iff u' w' hlt hlt').2 ⟨hforth, hback⟩
  isTrueIn_eq := by
    intro l m i hi hj v hv
    rcases hp.exists_mutual hg hi hj with ⟨u, w, hu, hw, huw, hwu⟩
    rw [Bool.eq_iff_iff]
    constructor
    · exact hf.isTrueIn_of_reaches hv huw hu hw
    · exact hf.isTrueIn_of_reaches hv hwu hw hu

theorem Built.exists_represents {f : Formula} (hf : f.Built)
    (hsize : f.numbering.size < UInt32.size) :
    ∃ p, f.graph.partition = .ok p ∧ p.Represents f := by
  have hcoherent := hf.coherent hsize
  have hg := hcoherent.wellFormed_graph hsize
  rcases hg.exists_partition with ⟨p, hp, hstrong⟩
  exact ⟨p, hp, hcoherent.represents hg hstrong⟩

end Formula
end TwoCnf
