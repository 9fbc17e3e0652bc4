import TwoCnf.Proofs.Component.Portrait
import TwoCnf.Proofs.Solver.Mirror

/-!
# Conflict — the variable that a solver names contradicts itself

The scan for a conflict looks at the literals one by one, and for each at the number of its negation. Since
the negations of a component are a component, the first literal of each tells for all of them.

* `clashes` — a component lists some literal along with its negation; then it lists all its literals so
  (`Partition.Represents.neg_mem`);
* `Partition.Represents.conflict?_eq` — the conflict is the variable of the first literal of the first such
  component;
* `Graph.Contradicts` — the two literals of a variable reach each other, that is, share a component
  (`Partition.StrongFor.contradicts_iff`);
* `Graph.Certifies` — paths both ways between the literals of a variable, with a clause for every edge;
* `conflict_certified` — what any solver names is certified.
-/

namespace TwoCnf

/-! ## The scan -/

/-- Some literal is listed along with its negation. -/
def clashes (lits : List Lit) : Bool :=
  lits.any fun l => lits.contains l.neg

theorem clashes_iff {lits : List Lit} : clashes lits = true ↔ ∃ l ∈ lits, l.neg ∈ lits := by
  simp [clashes]

/-- A scan that has a result for the elements that pass a test, and none for the others, stops at the first
of them. -/
theorem findSome?_eq_bind {α β : Type} {xs : List α} {scan result : α → Option β} {test : α → Bool}
    (hscan : ∀ x ∈ xs, scan x = if test x = true then result x else none)
    (hresult : ∀ x ∈ xs, test x = true → (result x).isSome = true) :
    xs.findSome? scan = (xs.find? test).bind result := by
  induction xs with
  | nil =>
      rfl
  | cons x xs ih =>
      rw [List.forall_mem_cons] at hscan hresult
      rw [List.findSome?_cons, hscan.1]
      by_cases hx : test x = true
      · rcases Option.isSome_iff_exists.1 (hresult.1 hx) with ⟨y, hy⟩
        rw [if_pos hx, hy, List.find?_cons_of_pos hx, Option.bind_some, hy]
      · rw [if_neg hx, List.find?_cons_of_neg hx]
        exact ih hscan.2 hresult.2

namespace Partition

variable {p : Partition} {f : Formula}

/-- The first component, in closing order, that lists a literal along with its negation. -/
def firstClash? (p : Partition) : Option (List Lit) :=
  p.components.toList.find? clashes

/-- A component with one literal along with its negation has all its literals so. -/
theorem Represents.neg_mem (hp : p.Represents f) {i : Nat} {lits : List Lit}
    (hlits : p.component i = .ok lits) (hclash : clashes lits = true) {l : Lit} (hl : l ∈ lits) :
    l.neg ∈ lits := by
  rcases clashes_iff.1 hclash with ⟨m, hm, hm'⟩
  rw [hp.tidy.mem_iff hlits] at hl hm hm' ⊢
  rw [hp.neg_eq l m i hl hm]
  exact hm'

/-- What the scan finds in one component. -/
theorem Represents.scan_eq (hp : p.Represents f) {i : Nat} {lits : List Lit}
    (hlits : p.component i = .ok lits) :
    (lits.find? fun l => p.componentOf? l.neg == some i).map Lit.var =
      if clashes lits = true then lits.head?.map Lit.var else none := by
  have hshares : ∀ l : Lit, (p.componentOf? l.neg == some i) = true ↔ l.neg ∈ lits := by
    intro l
    rw [beq_iff_eq, hp.tidy.mem_iff hlits]
  by_cases hclash : clashes lits = true
  · rw [if_pos hclash]
    cases lits with
    | nil =>
        rfl
    | cons first rest =>
        -- the scan stops at once
        have hfirst := (hshares first).2 (hp.neg_mem hlits hclash List.mem_cons_self)
        have hstop : (first :: rest).find? (fun l => p.componentOf? l.neg == some i) = some first :=
          List.find?_cons_of_pos hfirst
        rw [hstop, List.head?_cons]
  · rw [if_neg hclash, Option.map_eq_none_iff, List.find?_eq_none]
    intro l hl hshared
    exact hclash (clashes_iff.2 ⟨l, hl, (hshares l).1 hshared⟩)

/-- The conflict is the variable of the first literal of the first component that lists a literal along
with its negation. -/
theorem Represents.conflict?_eq (hp : p.Represents f) :
    p.conflict? = p.firstClash?.bind fun lits => lits.head?.map Lit.var := by
  have hhead : ∀ lits, clashes lits = true → (lits.head?.map Lit.var).isSome = true := by
    intro lits hclash
    rcases clashes_iff.1 hclash with ⟨l, hl, _⟩
    rw [Option.isSome_map, List.isSome_head?]
    exact List.ne_nil_of_mem hl
  have hscan : ∀ entry ∈ p.components.toList.zipIdx,
      (entry.1.find? fun l => p.componentOf? l.neg == some entry.2).map Lit.var =
        if clashes entry.1 = true then entry.1.head?.map Lit.var else none := by
    rintro ⟨lits, i⟩ hentry
    rw [List.mem_zipIdx_iff_getElem?, Array.getElem?_toList] at hentry
    exact hp.scan_eq (entry_eq_ok.2 hentry)
  -- the numbers along with the components matter for the scan only
  have hfirst : p.firstClash? =
      (p.components.toList.zipIdx.find? fun entry => clashes entry.1).map Prod.fst := by
    have hmap := List.find?_map (f := Prod.fst) (p := clashes) (l := p.components.toList.zipIdx)
    rw [List.zipIdx_map_fst] at hmap
    exact hmap
  rw [hfirst, Option.bind_map]
  exact findSome?_eq_bind hscan fun entry _ => hhead entry.1

/-- A literal and its negation are the two literals of its variable. -/
theorem shared_of_neg {l : Lit} {i : Nat} (hl : p.componentOf? l = some i)
    (hneg : p.componentOf? l.neg = some i) :
    p.componentOf? ⟨l.var, true⟩ = some i ∧ p.componentOf? ⟨l.var, false⟩ = some i := by
  rcases l with ⟨x, sign⟩
  cases sign with
  | true =>
      exact ⟨hl, hneg⟩
  | false =>
      exact ⟨hneg, hl⟩

/-- The literals of the conflict share a component. -/
theorem Represents.shared_of_conflict? (hp : p.Represents f) {x : UInt32}
    (h : p.conflict? = some x) :
    ∃ i, p.componentOf? ⟨x, true⟩ = some i ∧ p.componentOf? ⟨x, false⟩ = some i := by
  rw [hp.conflict?_eq] at h
  rcases Option.bind_eq_some_iff.1 h with ⟨lits, hfirst, hhead⟩
  rcases Option.map_eq_some_iff.1 hhead with ⟨l, hl, rfl⟩
  have hmem : l ∈ lits := List.mem_of_head? hl
  have hclash : clashes lits = true := List.find?_some hfirst
  have hlisted : lits ∈ p.components := Array.mem_def.2 (List.mem_of_find?_eq_some hfirst)
  rcases Array.mem_iff_getElem?.1 hlisted with ⟨i, hi⟩
  have hlits : p.component i = .ok lits := entry_eq_ok.2 hi
  exact ⟨i, shared_of_neg ((hp.tidy.mem_iff hlits l).1 hmem)
    ((hp.tidy.mem_iff hlits l.neg).1 (hp.neg_mem hlits hclash hmem))⟩

theorem Tidy.isSome_conflict?_iff (hp : p.Tidy) : p.conflict?.isSome = true ↔
    ∃ x i, p.componentOf? ⟨x, true⟩ = some i ∧ p.componentOf? ⟨x, false⟩ = some i := by
  rw [Option.isSome_iff_ne_none, Ne, hp.conflict?_eq_none_iff, Free]
  push Not
  constructor
  · rintro ⟨l, i, hl, hneg⟩
    exact ⟨l.var, i, shared_of_neg hl hneg⟩
  · rintro ⟨x, i, htrue, hfalse⟩
    exact ⟨⟨x, true⟩, i, htrue, hfalse⟩

end Partition

/-! ## Certificates -/

namespace Graph

/-- The two literals of a variable reach each other. -/
def Contradicts (g : Graph) (x : UInt32) : Prop :=
  ∃ u w, g.vertexOf? ⟨x, true⟩ = some u ∧ g.vertexOf? ⟨x, false⟩ = some w ∧
    g.Reaches u w ∧ g.Reaches w u

/-- An edge of the graph leads from `l` to `m`, and it comes from one of the clauses. -/
def TracedTo (g : Graph) (cs : List Clause) (l m : Lit) : Prop :=
  (∃ u w, g.vertexOf? l = some u ∧ g.vertexOf? m = some w ∧ g.Edge u w) ∧ ∃ c ∈ cs, c.Implies l m

/-- Paths lead from the variable to its negation and back, of which every edge comes from one of the
clauses. So wherever the clauses are true, the variable is, and its negation is as well. -/
structure Certifies (g : Graph) (cs : List Clause) (x : UInt32) : Prop where
  forth : Relation.ReflTransGen (g.TracedTo cs) ⟨x, true⟩ ⟨x, false⟩
  back : Relation.ReflTransGen (g.TracedTo cs) ⟨x, false⟩ ⟨x, true⟩
  forced : ∀ v : Valuation, (∀ c ∈ cs, c.isTrueIn v = true) →
    Lit.isTrueIn ⟨x, true⟩ v = true ∧ Lit.isTrueIn ⟨x, false⟩ v = true

end Graph

/-- Literals reach each other exactly if they share a component. -/
theorem Partition.StrongFor.contradicts_iff {g : Graph} {p : Partition} (hp : p.StrongFor g)
    (hg : g.WellFormed) {x : UInt32} : g.Contradicts x ↔
      ∃ i, p.componentOf? ⟨x, true⟩ = some i ∧ p.componentOf? ⟨x, false⟩ = some i := by
  constructor
  · rintro ⟨u, w, hu, hw, huw, hwu⟩
    rcases hg.vertexOf?_eq_some_iff.1 hu with ⟨hult, hname⟩
    rcases hg.vertexOf?_eq_some_iff.1 hw with ⟨hwlt, hname'⟩
    have hsame := (hp.same_iff u w hult hwlt).2 ⟨huw, hwu⟩
    rcases hp.exists_number u hult with ⟨i, hi⟩
    rw [hname, hname'] at hsame
    rw [hname] at hi
    exact ⟨i, hi, hsame ▸ hi⟩
  · rintro ⟨i, htrue, hfalse⟩
    exact hp.exists_mutual hg htrue hfalse

namespace Formula.Coherent

variable {f : Formula}

/-- Every step that the clauses force is an edge of the graph. -/
theorem tracedTo_of_forces (hf : f.Coherent) {l m : Lit} (h : Forces f.clauses.toList l m) :
    f.graph.TracedTo f.clauses.toList l m := by
  rcases h with ⟨c, hc, himplies⟩
  have hc' : c ∈ f.clauses := Array.mem_def.2 hc
  rcases hf.exists_vertexOf?_of_mentions hc' himplies.mentions.1 with ⟨u, hu⟩
  rcases hf.exists_vertexOf?_of_mentions hc' himplies.mentions.2 with ⟨w, hw⟩
  have hedge := (hf.edge_iff u w).2 ⟨c, hc', l, m, himplies, hu, hw⟩
  exact ⟨⟨u, w, hu, hw, hedge⟩, c, hc, himplies⟩

theorem certifies (hf : f.Coherent) {x : UInt32} (h : f.graph.Contradicts x) :
    f.graph.Certifies f.clauses.toList x := by
  rcases h with ⟨u, w, hu, hw, huw, hwu⟩
  have hforth := hf.entails_of_reaches huw hu hw
  have hback := hf.entails_of_reaches hwu hw hu
  refine
    { forth := Relation.ReflTransGen.mono (fun _ _ => hf.tracedTo_of_forces) _ _ hforth
      back := Relation.ReflTransGen.mono (fun _ _ => hf.tracedTo_of_forces) _ _ hback
      forced := ?_ }
  intro v hv
  -- whichever of the two is true, the other one follows
  cases htrue : Lit.isTrueIn ⟨x, true⟩ v with
  | true =>
      exact ⟨rfl, hforth.isTrueIn hv htrue⟩
  | false =>
      have hfalse : Lit.isTrueIn ⟨x, false⟩ v = true := by
        have hneg := Lit.isTrueIn_neg ⟨x, true⟩ v
        rw [htrue] at hneg
        exact hneg
      rw [hback.isTrueIn hv hfalse] at htrue
      cases htrue

end Formula.Coherent

/-! ## Solvers -/

namespace Solver

/-- The clauses that a solver was given at the start, and those that it accepted since. -/
def inserted (given : List (Int32 × Int32)) (ops : List Operation) : List Clause :=
  (given ++ ops.flatMap Operation.accepted).map Clause.ofHalves

theorem Reflects.clauses_eq {s : Solver} {clauses : List (Int32 × Int32)} (h : s.Reflects clauses) :
    s.formula.clauses.toList = clauses.map Clause.ofHalves := by
  rw [h.formula, clauses_ofHalves]

theorem AnswersFrom.verdict_eq_contradiction_iff {s : Solver} {a : Analysis} (h : s.AnswersFrom a)
    (x : UInt32) : (s.perform .verdict).1 = .verdict (.contradiction x) ↔
      a.partition.conflict? = some x := by
  rw [h.verdict, Analysis.verdict]
  cases a.partition.conflict? <;> simp

end Solver

/-- A solver at any point of a run from any start, with fewer than `4294967296` vertices. It names a
conflict exactly if the two literals of some variable reach each other in its graph. The named variable is
certified by the inserted clauses: paths lead from it to its negation and back, and each of their edges
comes from a clause. A component that lists a literal along with its negation lists all its literals so,
and the named variable is that of the first literal of the first such component. The verdict names the
same variable. -/
theorem conflict_certified {start s : Solver} {given : List (Int32 × Int32)}
    {ops : List Solver.Operation} (hstart : Solver.Starts start given)
    (hs : (start.performAll ops).2 = s) (hsize : s.formula.graph.numVertices < UInt32.size) :
    ∃ g p conflict, (s.perform .graph).1 = .graph g ∧ (s.perform .partition).1 = .partition p ∧
      (s.perform .conflict).1 = .conflict conflict ∧
      (conflict.isSome = true ↔ ∃ x, g.Contradicts x) ∧
      (∀ x, conflict = some x → g.Contradicts x ∧ g.Certifies (Solver.inserted given ops) x) ∧
      (∀ i lits, p.component i = .ok lits → (∃ l ∈ lits, l.neg ∈ lits) → ∀ l ∈ lits, l.neg ∈ lits) ∧
      conflict = (p.firstClash?.bind fun lits => lits.head?.map Lit.var) ∧
      ∀ x, (s.perform .verdict).1 = .verdict (.contradiction x) ↔ conflict = some x := by
  have hreflects := hstart.reflects_performAll hs
  have hcoherent := hreflects.built.coherent hsize
  have hg := hcoherent.wellFormed_graph hsize
  rcases hreflects.exists_strong hsize with ⟨p, hanswers, hstrong, hrep⟩
  refine ⟨s.formula.graph, p, p.conflict?, hanswers.graph, hanswers.partition, hanswers.conflict,
    ?_, ?_, ?_, hrep.conflict?_eq, hanswers.verdict_eq_contradiction_iff⟩
  · simp only [hrep.tidy.isSome_conflict?_iff, hstrong.contradicts_iff hg]
  · intro x hx
    have hcontradicts := (hstrong.contradicts_iff hg).2 (hrep.shared_of_conflict? hx)
    have hcertifies := hcoherent.certifies hcontradicts
    rw [hreflects.clauses_eq] at hcertifies
    exact ⟨hcontradicts, hcertifies⟩
  · intro i lits hlits hclash l hl
    exact hrep.neg_mem hlits (clashes_iff.2 hclash) hl

/-- The component of `3` is closed first and is consistent. The next one holds `1` and `2` along with their
negations, and the literal that it lists first is `-2`. -/
theorem conflict_certified_second :
    ∃ s, (Solver.performAll .empty [.insert 3 (-1), .insert 1 2, .verdict, .insert (-1) (-2),
        .insert 0 3, .insert (-1) 2, .insert 1 (-2)]).2 = s ∧
      s.formula.graph.numVertices < UInt32.size ∧
      ∃ g, (s.perform .graph).1 = .graph g ∧ (s.perform .conflict).1 = .conflict (some 2) ∧
        (s.perform .verdict).1 = .verdict (.contradiction 2) ∧ g.Contradicts 2 ∧
        g.Certifies [⟨⟨3, true⟩, ⟨1, false⟩⟩, ⟨⟨1, true⟩, ⟨2, true⟩⟩, ⟨⟨1, false⟩, ⟨2, false⟩⟩,
          ⟨⟨1, false⟩, ⟨2, true⟩⟩, ⟨⟨1, true⟩, ⟨2, false⟩⟩] 2 := by
  obtain ⟨s, hs⟩ : ∃ s, (Solver.performAll .empty [.insert 3 (-1), .insert 1 2, .verdict,
      .insert (-1) (-2), .insert 0 3, .insert (-1) 2, .insert 1 (-2)]).2 = s := ⟨_, rfl⟩
  have hsize : s.formula.graph.numVertices < UInt32.size := by
    rw [← hs]
    decide +kernel
  rcases conflict_certified Solver.Starts.empty hs hsize with
    ⟨g, p, conflict, hgraph, _, hconflict, _, hcertified, _, _, hverdict⟩
  have htwo : conflict = some 2 := by
    have hnamed : (match (s.perform .conflict).1 with
        | .conflict x => x
        | _ => none) = some 2 := by
      rw [← hs]
      decide +kernel
    rw [hconflict] at hnamed
    exact hnamed
  rcases hcertified 2 htwo with ⟨hcontradicts, hcertifies⟩
  rw [htwo] at hconflict
  exact ⟨s, hs, hsize, g, hgraph, hconflict, (hverdict 2).2 htwo, hcontradicts, hcertifies⟩

end TwoCnf
