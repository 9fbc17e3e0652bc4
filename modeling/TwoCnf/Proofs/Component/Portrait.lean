import Mathlib.Data.Finset.Dedup
import TwoCnf.Proofs.Component.Condensation
import TwoCnf.Proofs.Component.Duality

/-!
# Portrait — graph and components of a formula without numbers

Vertices and components are numbered as they come up. What can be said of them without these numbers, in
terms of literals only, is what the clauses force and entail.

* `Formula.Coherent.reaches_iff_entails` — a path between vertices is an entailment between their literals;
* `Partition.StrongFor.sameNumber_iff` — a component holds the literals that entail each other;
* `View` — a graph with its edges, components, and the rows of their condensation; `View.groups` and
  `View.Leads` are the components as sets of literals, and the condensation between such sets;
* `View.Depicts` — what a view shows, in terms of what the clauses force and entail;
* `Formula.Coherent.exists_view` — the view of a formula depicts its clauses.
-/

namespace TwoCnf

/-! ## Paths and entailment -/

namespace Formula.Coherent

variable {f : Formula}

theorem edge_iff_forces (hf : f.Coherent) {u v : UInt32} {l m : Lit}
    (hu : f.graph.vertexOf? l = some u) (hv : f.graph.vertexOf? m = some v) :
    f.graph.Edge u v ↔ Forces f.clauses.toList l m := by
  rw [hf.edge_iff]
  constructor
  · rintro ⟨c, hc, l', m', himplies, hl', hm'⟩
    rw [hf.eq_of_vertexOf? hu hl', hf.eq_of_vertexOf? hv hm']
    exact ⟨c, Array.mem_def.1 hc, himplies⟩
  · rintro ⟨c, hc, himplies⟩
    exact ⟨c, Array.mem_def.2 hc, l, m, himplies, hu, hv⟩

theorem entails_of_reaches (hf : f.Coherent) {u v : UInt32} {l m : Lit} (huv : f.graph.Reaches u v)
    (hu : f.graph.vertexOf? l = some u) (hv : f.graph.vertexOf? m = some v) :
    Entails f.clauses.toList l m := by
  induction huv generalizing m with
  | refl =>
      rw [hf.eq_of_vertexOf? hu hv]
      exact Relation.ReflTransGen.refl
  | @tail w v _ hwv ih =>
      rcases (hf.edge_iff w v).1 hwv with ⟨_, _, k, _, _, hk, _⟩
      exact (ih hk).tail ((hf.edge_iff_forces hk hv).1 hwv)

/-- What a literal of the formula entails is a literal of the formula as well. -/
theorem exists_reaches_of_entails (hf : f.Coherent) {u : UInt32} {l m : Lit}
    (h : Entails f.clauses.toList l m) (hu : f.graph.vertexOf? l = some u) :
    ∃ v, f.graph.vertexOf? m = some v ∧ f.graph.Reaches u v := by
  induction h with
  | refl =>
      exact ⟨u, hu, Relation.ReflTransGen.refl⟩
  | @tail k m _ hforces ih =>
      rcases ih with ⟨w, hw, huw⟩
      rcases hforces with ⟨c, hc, himplies⟩
      rcases hf.exists_vertexOf?_of_mentions (Array.mem_def.2 hc) himplies.mentions.2 with ⟨v, hv⟩
      exact ⟨v, hv, huw.tail ((hf.edge_iff_forces hw hv).2 ⟨c, hc, himplies⟩)⟩

theorem reaches_iff_entails (hf : f.Coherent) {u v : UInt32} {l m : Lit}
    (hu : f.graph.vertexOf? l = some u) (hv : f.graph.vertexOf? m = some v) :
    f.graph.Reaches u v ↔ Entails f.clauses.toList l m := by
  constructor
  · intro huv
    exact hf.entails_of_reaches huv hu hv
  · intro h
    rcases hf.exists_reaches_of_entails h hu with ⟨v', hv', hreaches⟩
    rw [hv] at hv'
    cases hv'
    exact hreaches

end Formula.Coherent

/-! ## Components and entailment -/

namespace Partition.StrongFor

variable {f : Formula} {p : Partition}

/-- A component holds the literals that entail each other. -/
theorem sameNumber_iff (hp : p.StrongFor f.graph) (hg : f.graph.WellFormed) (hf : f.Coherent)
    {l : Lit} {i : Nat} (hi : p.componentOf? l = some i) (m : Lit) :
    p.componentOf? m = some i ↔ Entails f.clauses.toList l m ∧ Entails f.clauses.toList m l := by
  rcases hp.exists_name l i hi with ⟨u, hult, hname⟩
  have hu := hg.vertexOf?_eq_some_iff.2 ⟨hult, hname⟩
  -- for a literal with a vertex, this is what the search has found out about paths
  have hsame : ∀ w, f.graph.vertexOf? m = some w → (p.componentOf? m = some i ↔
      Entails f.clauses.toList l m ∧ Entails f.clauses.toList m l) := by
    intro w hw
    rcases hg.vertexOf?_eq_some_iff.1 hw with ⟨hwlt, hname'⟩
    have hmutual := hp.same_iff u w hult hwlt
    rw [hname, hname', hi, hf.reaches_iff_entails hu hw, hf.reaches_iff_entails hw hu] at hmutual
    rw [← hmutual, eq_comm]
  constructor
  · intro hm
    rcases hp.exists_name m i hm with ⟨w, hw⟩
    exact (hsame w (hg.vertexOf?_eq_some_iff.2 hw)).1 hm
  · rintro ⟨hlm, hml⟩
    -- and what is entailed has a vertex
    rcases hf.exists_reaches_of_entails hlm hu with ⟨w, hw, _⟩
    exact (hsame w hw).2 ⟨hlm, hml⟩

end Partition.StrongFor

/-! ## Views -/

/-- A graph with its edges between literals, its components, and the rows of their condensation. -/
structure View where
  graph : Graph
  edges : List (Lit × Lit)
  partition : Partition
  rows : Array Row

namespace View

/-- The edges, the components and the condensation are those of the graph. -/
structure Exact (q : View) : Prop where
  edges : q.graph.edges = .ok q.edges
  partition : q.graph.partition = .ok q.partition
  rows : condensation q.graph q.partition = .ok q.rows

/-- The components as sets of literals. -/
def groups (q : View) : Finset (Finset Lit) :=
  (q.partition.components.toList.map List.toFinset).toFinset

/-- The condensation leads from a component with the literals `A` to one with the literals `B`. -/
def Leads (q : View) (A B : Finset Lit) : Prop :=
  ∃ i j lits lits', q.partition.component i = .ok lits ∧ lits.toFinset = A ∧
    q.partition.component j = .ok lits' ∧ lits'.toFinset = B ∧ RowEdge q.rows i j

/-- What a view shows of some clauses. The vertices are the literals of the variables, the edges are what
the clauses force in one step, and a component is what some literal entails and is entailed by. One
component leads to another if some literal of the one forces some literal of the other. -/
structure Depicts (q : View) (cs : List Clause) : Prop where
  vertex_iff : ∀ l, (q.graph.vertexOf? l).isSome = true ↔ ∃ c ∈ cs, c.Mentions l.var
  edge_iff : ∀ l m, (l, m) ∈ q.edges ↔ Forces cs l m
  group_iff : ∀ A, A ∈ q.groups ↔
    ∃ l, (∃ c ∈ cs, c.Mentions l.var) ∧ ∀ m, m ∈ A ↔ Entails cs l m ∧ Entails cs m l
  leads_iff : ∀ A B, q.Leads A B ↔
    A ∈ q.groups ∧ B ∈ q.groups ∧ A ≠ B ∧ ∃ l ∈ A, ∃ m ∈ B, Forces cs l m

theorem mem_groups {q : View} {A : Finset Lit} :
    A ∈ q.groups ↔ ∃ i lits, q.partition.component i = .ok lits ∧ lits.toFinset = A := by
  unfold groups Partition.component
  rw [List.mem_toFinset, List.mem_map]
  simp only [← Array.mem_def, Array.mem_iff_getElem?, entry_eq_ok]
  constructor
  · rintro ⟨lits, ⟨i, hi⟩, hA⟩
    exact ⟨i, lits, hi, hA⟩
  · rintro ⟨i, lits, hi, hA⟩
    exact ⟨lits, ⟨i, hi⟩, hA⟩

theorem mem_toFinset_iff {p : Partition} (hp : p.Tidy) {i : Nat} {lits : List Lit}
    (h : p.component i = .ok lits) (l : Lit) : l ∈ lits.toFinset ↔ p.componentOf? l = some i := by
  rw [List.mem_toFinset, hp.mem_iff h]

theorem leads_iff {q : View} (hg : q.graph.WellFormed) (hp : q.partition.StrongFor q.graph)
    (hrows : q.partition.Condensed q.edges q.rows) (A B : Finset Lit) :
    q.Leads A B ↔ A ∈ q.groups ∧ B ∈ q.groups ∧ A ≠ B ∧ ∃ l ∈ A, ∃ m ∈ B, (l, m) ∈ q.edges := by
  have hsize : q.partition.size < UInt32.size := Nat.lt_of_le_of_lt hp.size_le hg.size_lt
  constructor
  · rintro ⟨i, j, lits, lits', hlits, rfl, hlits', rfl, row, hrow, id, hid, rfl⟩
    rcases (hrows.mem_iff i row id hrow).1 hid with ⟨hne, l, m, hlm, hl, hm⟩
    have hl' := (mem_toFinset_iff hp.tidy hlits l).2 hl
    refine ⟨mem_groups.2 ⟨i, lits, hlits, rfl⟩, mem_groups.2 ⟨_, lits', hlits', rfl⟩, ?_, l,
      hl', m, (mem_toFinset_iff hp.tidy hlits' m).2 hm, hlm⟩
    -- a literal has one number only
    intro heq
    rw [heq, mem_toFinset_iff hp.tidy hlits', hl] at hl'
    exact hne (Option.some.inj hl')
  · rintro ⟨hA, hB, hne, l, hl, m, hm, hlm⟩
    rcases mem_groups.1 hA with ⟨i, lits, hlits, rfl⟩
    rcases mem_groups.1 hB with ⟨j, lits', hlits', rfl⟩
    rw [mem_toFinset_iff hp.tidy hlits] at hl
    rw [mem_toFinset_iff hp.tidy hlits'] at hm
    -- distinct sets of literals have distinct numbers
    have hij : i ≠ j := by
      rintro rfl
      rw [hlits] at hlits'
      cases hlits'
      exact hne rfl
    have hi : i < q.rows.size := by
      rw [hrows.size_eq]
      exact hp.tidy.lt_size hl
    have hexact : (UInt32.ofNat j).toNat = j :=
      UInt32.toNat_ofNat_of_lt' (Nat.lt_trans (hp.tidy.lt_size hm) hsize)
    refine ⟨i, j, lits, lits', hlits, rfl, hlits', rfl, q.rows[i], Array.getElem?_eq_getElem hi,
      UInt32.ofNat j, ?_, hexact⟩
    refine (hrows.mem_iff i _ _ (Array.getElem?_eq_getElem hi)).2 ?_
    rw [hexact]
    exact ⟨hij, l, m, hlm, hl, hm⟩

end View

namespace Formula.Coherent

variable {f : Formula} {q : View}

theorem group_iff (hf : f.Coherent) (hg : f.graph.WellFormed) (hp : q.partition.StrongFor f.graph)
    (A : Finset Lit) : A ∈ q.groups ↔ ∃ l, (∃ c ∈ f.clauses.toList, c.Mentions l.var) ∧
      ∀ m, m ∈ A ↔ Entails f.clauses.toList l m ∧ Entails f.clauses.toList m l := by
  have hmentions : ∀ l, (∃ c ∈ f.clauses.toList, c.Mentions l.var) ↔
      ∃ i, q.partition.componentOf? l = some i := by
    intro l
    rw [(hf.represents hg hp).exists_number_iff, hf.contains_iff]
    simp only [Array.mem_def]
  rw [View.mem_groups]
  constructor
  · rintro ⟨i, lits, hlits, rfl⟩
    -- a component is not empty, and each of its literals tells which it is
    rcases List.exists_mem_of_ne_nil lits (hp.tidy.ne_nil lits (Array.mem_of_getElem? (entry_eq_ok.1 hlits)))
      with ⟨l, hl⟩
    have hi := (hp.tidy.componentOf?_eq_some l i).2 ⟨lits, hlits, hl⟩
    refine ⟨l, (hmentions l).2 ⟨i, hi⟩, ?_⟩
    intro m
    rw [View.mem_toFinset_iff hp.tidy hlits, hp.sameNumber_iff hg hf hi]
  · rintro ⟨l, hl, hA⟩
    rcases (hmentions l).1 hl with ⟨i, hi⟩
    rcases (hp.tidy.componentOf?_eq_some l i).1 hi with ⟨lits, hlits, _⟩
    refine ⟨i, lits, hlits, Finset.ext ?_⟩
    intro m
    rw [View.mem_toFinset_iff hp.tidy hlits, hp.sameNumber_iff hg hf hi, hA]

/-- The view of a formula depicts its clauses. -/
theorem exists_view (hf : f.Coherent) (hsize : f.numbering.size < UInt32.size) :
    ∃ q : View, q.graph = f.graph ∧ q.Exact ∧ q.Depicts f.clauses.toList := by
  have hg := hf.wellFormed_graph hsize
  rcases hg.exists_partition with ⟨p, hp, hstrong⟩
  rcases hg.exists_condensation hstrong with ⟨es, rows, hes, hcond, hrows⟩
  have hedge : ∀ l m, (l, m) ∈ es ↔ Forces f.clauses.toList l m := by
    intro l m
    simp only [hf.mem_edges_iff hsize hes, Forces, Array.mem_def]
  refine ⟨⟨f.graph, es, p, rows⟩, rfl, ⟨hes, hp, hcond⟩, ?_, hedge, hf.group_iff hg hstrong, ?_⟩
  · intro l
    simp only [← Array.mem_def]
    exact hf.contains_iff l
  · intro A B
    rw [View.leads_iff hg hstrong hrows]
    simp only [hedge]

end Formula.Coherent
end TwoCnf
