import TwoCnf.Component.Condensation
import TwoCnf.Proofs.Component.StronglyConnected

/-!
# Condensation — the graph between components is exact

* `Partition.Condensed` — the rows that a list of edges between literals amounts to;
* `Partition.Condensed.step` — entering one edge does not fail and keeps the rows exact, as long as both
  its ends are in components. So entering all edges fails at the first that is not covered
  (`Partition.exists_condensed`, `Partition.condensation_eq_error_iff`);
* `Graph.WellFormed.reaches_iff` — a path of the graph is a path of the condensation;
* `condensation_exact` — the condensation of the graph of a formula, row by row.
-/

namespace TwoCnf

namespace Partition

/-- One row per component. The row of `i` lists the other components to which one of the edges leads from
`i`, each once. -/
structure Condensed (p : Partition) (es : List (Lit × Lit)) (rows : Array Row) : Prop where
  size_eq : rows.size = p.size
  nodup : ∀ (i : Nat) (row : Row), rows[i]? = some row → row.ids.toList.Nodup
  mem_iff : ∀ (i : Nat) (row : Row) (j : UInt32), rows[i]? = some row →
    (j ∈ row.ids ↔ i ≠ j.toNat ∧
      ∃ l m, (l, m) ∈ es ∧ p.componentOf? l = some i ∧ p.componentOf? m = some j.toNat)

theorem eq_empty_of_replicate {n i : Nat} {row : Row}
    (h : (Array.replicate n Row.empty)[i]? = some row) : row = Row.empty := by
  rw [Array.getElem?_replicate] at h
  split at h
  · exact (Option.some.inj h).symm
  · cases h

theorem condensed_nil (p : Partition) : p.Condensed [] (Array.replicate p.size .empty) where
  size_eq := Array.size_replicate
  nodup := by
    intro i row hrow
    rw [eq_empty_of_replicate hrow]
    exact List.nodup_nil
  mem_iff := by
    intro i row j hrow
    rw [eq_empty_of_replicate hrow]
    simp [Row.empty]

variable {p : Partition} {es : List (Lit × Lit)} {rows : Array Row} {l m : Lit} {a b : Nat}

/-- An edge within a component adds nothing. -/
theorem Condensed.same (h : p.Condensed es rows) (hl : p.componentOf? l = some a)
    (hm : p.componentOf? m = some a) : p.Condensed (es ++ [(l, m)]) rows where
  size_eq := h.size_eq
  nodup := h.nodup
  mem_iff := by
    intro i row j hrow
    rw [h.mem_iff i row j hrow]
    constructor
    · rintro ⟨hne, l', m', hmem, hl', hm'⟩
      exact ⟨hne, l', m', List.mem_append_left _ hmem, hl', hm'⟩
    · rintro ⟨hne, l', m', hmem, hl', hm'⟩
      refine ⟨hne, l', m', ?_, hl', hm'⟩
      rcases List.mem_append.1 hmem with hold | hnew
      · exact hold
      · -- the new edge would lead from the component to itself
        rcases Prod.mk.inj (List.mem_singleton.1 hnew) with ⟨rfl, rfl⟩
        rw [hl] at hl'
        rw [hm] at hm'
        exact absurd ((Option.some.inj hl').symm.trans (Option.some.inj hm')) hne

/-- An edge to another component is entered into the row of its source. -/
theorem Condensed.other (h : p.Condensed es rows) (hsize : p.size < UInt32.size) (hb : b < p.size)
    (hne : a ≠ b) (hl : p.componentOf? l = some a) (hm : p.componentOf? m = some b) :
    p.Condensed (es ++ [(l, m)]) (rows.modify a (·.insert (UInt32.ofNat b))) where
  size_eq := by
    rw [Array.size_modify]
    exact h.size_eq
  nodup := by
    intro i row hrow
    rw [Array.getElem?_modify] at hrow
    split at hrow
    · rcases Option.map_eq_some_iff.1 hrow with ⟨old, hold, rfl⟩
      exact Row.nodup_ids_insert (h.nodup i old hold) _
    · exact h.nodup i row hrow
  mem_iff := by
    have hexact : (UInt32.ofNat b).toNat = b := UInt32.toNat_ofNat_of_lt' (Nat.lt_trans hb hsize)
    intro i row j hrow
    rw [Array.getElem?_modify] at hrow
    by_cases hia : a = i
    · subst hia
      rw [if_pos rfl] at hrow
      rcases Option.map_eq_some_iff.1 hrow with ⟨old, hold, rfl⟩
      rw [Row.mem_ids_insert, h.mem_iff a old j hold]
      constructor
      · rintro (rfl | ⟨hne', l', m', hmem, hl', hm'⟩)
        · refine ⟨by rw [hexact]; exact hne, l, m, List.mem_append_right _ List.mem_cons_self, hl, ?_⟩
          rw [hexact]
          exact hm
        · exact ⟨hne', l', m', List.mem_append_left _ hmem, hl', hm'⟩
      · rintro ⟨hne', l', m', hmem, hl', hm'⟩
        rcases List.mem_append.1 hmem with hin | hnew
        · exact Or.inr ⟨hne', l', m', hin, hl', hm'⟩
        · rcases Prod.mk.inj (List.mem_singleton.1 hnew) with ⟨rfl, rfl⟩
          rw [hm] at hm'
          refine Or.inl (UInt32.toNat_inj.1 ?_)
          rw [hexact]
          exact (Option.some.inj hm').symm
    · rw [if_neg hia] at hrow
      rw [h.mem_iff i row j hrow]
      constructor
      · rintro ⟨hne', l', m', hmem, hl', hm'⟩
        exact ⟨hne', l', m', List.mem_append_left _ hmem, hl', hm'⟩
      · rintro ⟨hne', l', m', hmem, hl', hm'⟩
        refine ⟨hne', l', m', ?_, hl', hm'⟩
        rcases List.mem_append.1 hmem with hin | hnew
        · exact hin
        · -- the new edge leaves another component
          rcases Prod.mk.inj (List.mem_singleton.1 hnew) with ⟨rfl, rfl⟩
          rw [hl] at hl'
          exact absurd (Option.some.inj hl') hia

/-- Entering an edge between covered literals does not fail and keeps the rows exact. -/
theorem Condensed.step (h : p.Condensed es rows) (hp : p.Tidy) (hsize : p.size < UInt32.size)
    (hl : p.componentOf? l = some a) (hm : p.componentOf? m = some b) :
    ∃ rows', p.condense rows (l, m) = .ok rows' ∧ p.Condensed (es ++ [(l, m)]) rows' := by
  have ha : a < rows.size := by
    rw [h.size_eq]
    exact hp.lt_size hl
  unfold condense
  simp only [hl, hm]
  by_cases hab : a = b
  · subst hab
    rw [if_pos rfl]
    exact ⟨rows, rfl, h.same hl hm⟩
  · rw [if_neg hab, if_pos ha]
    exact ⟨_, rfl, h.other hsize (hp.lt_size hm) hab hl hm⟩

/-- Both ends of the edge are in components. -/
def covers (p : Partition) (edge : Lit × Lit) : Bool :=
  (p.componentOf? edge.1).isSome && (p.componentOf? edge.2).isSome

theorem covers_iff {edge : Lit × Lit} : p.covers edge = true ↔
    (∃ i, p.componentOf? edge.1 = some i) ∧ ∃ j, p.componentOf? edge.2 = some j := by
  simp only [covers, Bool.and_eq_true, Option.isSome_iff_exists]

/-- Entering edges between covered literals does not fail, and in the end the rows are exact. -/
theorem exists_condensed (hp : p.Tidy) (hsize : p.size < UInt32.size)
    (hes : ∀ e ∈ es, p.covers e = true) :
    ∃ rows, es.foldlM p.condense (Array.replicate p.size .empty) = .ok rows ∧ p.Condensed es rows := by
  refine exists_foldlM p.Condensed p.condensed_nil ?_
  rintro before ⟨l, m⟩ rows he hrows
  rcases covers_iff.1 (hes _ he) with ⟨⟨a, ha⟩, b, hb⟩
  exact hrows.step hp hsize ha hb

/-- The first edge that is not covered is a fault. -/
theorem foldlM_condense_of_find? (hp : p.Tidy) (hsize : p.size < UInt32.size) {e : Lit × Lit}
    (h : es.find? (fun e => !p.covers e) = some e) :
    es.foldlM p.condense (Array.replicate p.size .empty) = .error (.edgeOutside e.1 e.2) := by
  rcases List.find?_eq_some_iff_append.1 h with ⟨hout, before, after, rfl, hbefore⟩
  -- all edges before it are entered
  rcases exists_condensed hp hsize (by simpa using hbefore) with ⟨rows, hrows, _⟩
  have hfault : p.condense rows e = .error (.edgeOutside e.1 e.2) := by
    unfold condense
    split
    · rename_i a b ha hb
      have hin : p.covers e = true := covers_iff.2 ⟨⟨a, ha⟩, b, hb⟩
      simp [hin] at hout
    · rfl
  rw [List.foldlM_append, hrows]
  show List.foldlM p.condense rows (e :: after) = _
  rw [List.foldlM_cons, hfault]
  rfl

/-- A condensation fails exactly at the first edge that is not covered. -/
theorem condensation_eq_error_iff {g : Graph} (hp : p.Tidy) (hsize : p.size < UInt32.size)
    (hes : g.edges = .ok es) {fault : Fault} : condensation g p = .error fault ↔
      ∃ e, es.find? (fun e => !p.covers e) = some e ∧ fault = .edgeOutside e.1 e.2 := by
  have hfold : condensation g p = es.foldlM p.condense (Array.replicate p.size .empty) := by
    unfold condensation
    rw [hes]
    rfl
  rw [hfold]
  cases he : es.find? (fun e => !p.covers e) with
  | none =>
      have hcovers : ∀ e ∈ es, p.covers e = true := by
        simpa using he
      rcases exists_condensed hp hsize hcovers with ⟨rows, hrows, _⟩
      simp [hrows]
  | some e =>
      rw [foldlM_condense_of_find? hp hsize he]
      simp [eq_comm]

theorem exists_fault_iff {g : Graph} (hp : p.Tidy) (hsize : p.size < UInt32.size)
    (hes : g.edges = .ok es) :
    (∃ fault, condensation g p = .error fault) ↔ ∃ e ∈ es, p.covers e = false := by
  constructor
  · rintro ⟨_, hfault⟩
    rcases (condensation_eq_error_iff hp hsize hes).1 hfault with ⟨e, he, _⟩
    exact ⟨e, List.mem_of_find?_eq_some he, by simpa using List.find?_some he⟩
  · rintro ⟨e, he, hout⟩
    have hfirst : (es.find? fun e => !p.covers e).isSome = true := by
      rw [List.find?_isSome]
      exact ⟨e, he, by simp [hout]⟩
    rcases Option.isSome_iff_exists.1 hfirst with ⟨first, hfirst⟩
    exact ⟨_, (condensation_eq_error_iff hp hsize hes).2 ⟨first, hfirst, rfl⟩⟩

end Partition

/-! ## Paths between components -/

/-- The row of `i` lists `j`. -/
def RowEdge (rows : Array Row) (i j : Nat) : Prop :=
  ∃ row, rows[i]? = some row ∧ ∃ id ∈ row.ids, id.toNat = j

theorem rowEdge_toNat {rows : Array Row} {i : Nat} {row : Row} {j : UInt32}
    (hrow : rows[i]? = some row) : RowEdge rows i j.toNat ↔ j ∈ row.ids := by
  constructor
  · rintro ⟨row', hrow', id, hid, heq⟩
    rw [hrow] at hrow'
    cases hrow'
    rw [← UInt32.toNat_inj.1 heq]
    exact hid
  · intro hj
    exact ⟨row, hrow, j, hj, rfl⟩

namespace Graph.WellFormed

variable {g : Graph} {p : Partition}

/-- The condensation of a well-formed graph by its components. -/
theorem exists_condensation (hg : g.WellFormed) (hp : p.StrongFor g) :
    ∃ es rows, g.edges = .ok es ∧ condensation g p = .ok rows ∧ p.Condensed es rows := by
  rcases hg.exists_edges with ⟨es, hes, hmem⟩
  have hsize : p.size < UInt32.size := Nat.lt_of_le_of_lt hp.size_le hg.size_lt
  have hcovers : ∀ e ∈ es, p.covers e = true := by
    rintro ⟨l, m⟩ he
    rcases (hmem l m).1 he with ⟨u, v, hu, hv, _, rfl, rfl⟩
    exact Partition.covers_iff.2 ⟨hp.exists_number u hu, hp.exists_number v hv⟩
  rcases Partition.exists_condensed hp.tidy hsize hcovers with ⟨rows, hfold, hrows⟩
  exact ⟨es, rows, hes, bind_eq_ok.2 ⟨es, hes, hfold⟩, hrows⟩

theorem rowEdge_iff (hg : g.WellFormed) (hp : p.StrongFor g) {es : List (Lit × Lit)}
    {rows : Array Row} (hes : g.edges = .ok es) (hrows : p.Condensed es rows) {i j : Nat} :
    RowEdge rows i j ↔ i ≠ j ∧ ∃ u v : UInt32, u.toNat < g.numVertices ∧ v.toNat < g.numVertices ∧
      g.Edge u v ∧ p.componentOf? (g.name u) = some i ∧ p.componentOf? (g.name v) = some j := by
  rcases hg.exists_edges with ⟨es', hes', hmem⟩
  rw [hes] at hes'
  cases hes'
  constructor
  · rintro ⟨row, hrow, id, hid, rfl⟩
    rcases (hrows.mem_iff i row id hrow).1 hid with ⟨hne, l, m, hlm, hl, hm⟩
    rcases (hmem l m).1 hlm with ⟨u, v, hu, hv, huv, rfl, rfl⟩
    exact ⟨hne, u, v, hu, hv, huv, hl, hm⟩
  · rintro ⟨hne, u, v, hu, hv, huv, hi, hj⟩
    have hlt : i < rows.size := by
      rw [hrows.size_eq]
      exact hp.tidy.lt_size hi
    have hexact : (UInt32.ofNat j).toNat = j := by
      have hjlt := hp.tidy.lt_size hj
      have hle := hp.size_le
      have hsize := hg.size_lt
      exact UInt32.toNat_ofNat_of_lt' (by omega)
    refine ⟨rows[i], Array.getElem?_eq_getElem hlt, UInt32.ofNat j, ?_, hexact⟩
    refine (hrows.mem_iff i _ _ (Array.getElem?_eq_getElem hlt)).2 ⟨by rw [hexact]; exact hne, ?_⟩
    refine ⟨g.name u, g.name v, (hmem _ _).2 ⟨u, v, hu, hv, huv, rfl, rfl⟩, hi, ?_⟩
    rw [hexact]
    exact hj

theorem reaches_lt (hg : g.WellFormed) {u v : UInt32} (hu : u.toNat < g.numVertices)
    (h : g.Reaches u v) : v.toNat < g.numVertices := by
  cases h with
  | refl =>
      exact hu
  | tail _ hedge =>
      exact hg.target_lt _ _ hedge

/-- A vertex reaches another exactly if its component reaches that of the other. -/
theorem reaches_iff (hg : g.WellFormed) (hp : p.StrongFor g) {es : List (Lit × Lit)}
    {rows : Array Row} (hes : g.edges = .ok es) (hrows : p.Condensed es rows) {u v : UInt32}
    {i j : Nat} (hu : u.toNat < g.numVertices) (hv : v.toNat < g.numVertices)
    (hi : p.componentOf? (g.name u) = some i) (hj : p.componentOf? (g.name v) = some j) :
    g.Reaches u v ↔ Relation.ReflTransGen (RowEdge rows) i j := by
  constructor
  · intro huv
    induction huv generalizing j with
    | refl =>
        rw [hi] at hj
        cases hj
        exact Relation.ReflTransGen.refl
    | @tail w v huw hwv ih =>
        -- the last edge stays in its component or is an edge of the condensation
        have hw := hg.reaches_lt hu huw
        rcases hp.exists_number w hw with ⟨k, hk⟩
        have hpath := ih hw hk
        by_cases hkj : k = j
        · rw [← hkj]
          exact hpath
        · exact hpath.tail ((hg.rowEdge_iff hp hes hrows).2 ⟨hkj, w, v, hw, hv, hwv, hk, hj⟩)
  · intro hij
    induction hij generalizing v with
    | refl =>
        exact ((hp.same_iff u v hu hv).1 (hi.trans hj.symm)).1
    | @tail k j _ hkj ih =>
        -- cross to the source of the last edge, along it, and then within the last component
        rcases (hg.rowEdge_iff hp hes hrows).1 hkj with ⟨_, x, y, hx, hy, hxy, hxk, hyj⟩
        have hyv := ((hp.same_iff y v hy hv).1 (hyj.trans hj.symm)).1
        exact ((ih hx hxk).tail hxy).trans hyv

end Graph.WellFormed

/-- The condensation of the graph of a formula by its components. It has a row per component; the row of a
component lists the other components that an edge leads to, each once, and all of them were closed
earlier; and a path of the graph is a path of the condensation. -/
theorem condensation_exact {f : Formula} (hf : f.Built)
    (hsize : f.graph.numVertices < UInt32.size) :
    ∃ p rows, f.graph.partition = .ok p ∧ condensation f.graph p = .ok rows ∧ rows.size = p.size ∧
      (∀ (i : Nat) (row : Row), rows[i]? = some row → row.ids.toList.Nodup ∧
        ∀ j : UInt32, (j ∈ row.ids → j.toNat < i) ∧
          (j ∈ row.ids ↔ i ≠ j.toNat ∧ ∃ u v l m lits lits', f.graph.Edge u v ∧
            f.graph.lit u = .ok l ∧ f.graph.lit v = .ok m ∧ p.component i = .ok lits ∧ l ∈ lits ∧
            p.component j.toNat = .ok lits' ∧ m ∈ lits')) ∧
      (∀ u v l m, f.graph.lit u = .ok l → f.graph.lit v = .ok m →
        ∃ i j, p.componentOf? l = some i ∧ p.componentOf? m = some j ∧
          (f.graph.Reaches u v ↔ Relation.ReflTransGen (RowEdge rows) i j)) := by
  have hg := (hf.coherent hsize).wellFormed_graph hsize
  rcases hg.exists_partition with ⟨p, hp, hstrong⟩
  rcases hg.exists_condensation hstrong with ⟨es, rows, hes, hcond, hrows⟩
  refine ⟨p, rows, hp, hcond, hrows.size_eq, ?_, ?_⟩
  · intro i row hrow
    refine ⟨hrows.nodup i row hrow, ?_⟩
    intro j
    have hedge := hg.rowEdge_iff hstrong hes hrows (i := i) (j := j.toNat)
    have hmem : RowEdge rows i j.toNat ↔ j ∈ row.ids := rowEdge_toNat hrow
    rw [← hmem, hedge]
    constructor
    · rintro ⟨hne, u, v, hu, hv, huv, hi, hj⟩
      have hle := hstrong.order u v i j.toNat hu hv huv hi hj
      omega
    · constructor
      · rintro ⟨hne, u, v, hu, hv, huv, hi, hj⟩
        rcases (hstrong.tidy.componentOf?_eq_some _ _).1 hi with ⟨lits, hlits, hl⟩
        rcases (hstrong.tidy.componentOf?_eq_some _ _).1 hj with ⟨lits', hlits', hm⟩
        exact ⟨hne, u, v, _, _, lits, lits', huv, Graph.lit_eq_name hu, Graph.lit_eq_name hv,
          hlits, hl, hlits', hm⟩
      · rintro ⟨hne, u, v, l, m, lits, lits', huv, hlu, hlv, hlits, hl, hlits', hm⟩
        rcases Graph.name_of_lit hlu with ⟨hu, rfl⟩
        rcases Graph.name_of_lit hlv with ⟨hv, rfl⟩
        exact ⟨hne, u, v, hu, hv, huv, (hstrong.tidy.componentOf?_eq_some _ _).2 ⟨lits, hlits, hl⟩,
          (hstrong.tidy.componentOf?_eq_some _ _).2 ⟨lits', hlits', hm⟩⟩
  · intro u v l m hl hm
    rcases Graph.name_of_lit hl with ⟨hu, rfl⟩
    rcases Graph.name_of_lit hm with ⟨hv, rfl⟩
    rcases hstrong.exists_number u hu with ⟨i, hi⟩
    rcases hstrong.exists_number v hv with ⟨j, hj⟩
    exact ⟨i, j, hi, hj, hg.reaches_iff hstrong hes hrows hu hv hi hj⟩

/-- The component of `2` leads to that of `3`, which leads nowhere; so `2` reaches `3`, and not the other way
round. -/
theorem condensation_loopWithExit : Formula.loopWithExit.Built ∧
    Formula.loopWithExit.graph.numVertices < UInt32.size ∧
    ∃ p rows, Formula.loopWithExit.graph.partition = .ok p ∧
      condensation Formula.loopWithExit.graph p = .ok rows ∧ rows.size = p.size ∧
      rows = #[⟨#[]⟩, ⟨#[0]⟩, ⟨#[]⟩, ⟨#[2]⟩] ∧
      p.componentOf? ⟨2, true⟩ = some 1 ∧ p.componentOf? ⟨3, true⟩ = some 0 ∧
      Formula.loopWithExit.graph.Reaches 3 4 ∧ ¬ Formula.loopWithExit.graph.Reaches 4 3 := by
  have hsize := Formula.numVertices_loopWithExit_lt
  have htwo : Formula.loopWithExit.graph.lit 3 = .ok ⟨2, true⟩ := by decide +kernel
  have hthree : Formula.loopWithExit.graph.lit 4 = .ok ⟨3, true⟩ := by decide +kernel
  rcases condensation_exact Formula.built_loopWithExit hsize with
    ⟨p, rows, hp, hcond, hlen, _, hpaths⟩
  rcases Formula.components_loopWithExit hp with ⟨_, _, hi, hj⟩
  have hrows : rows = #[⟨#[]⟩, ⟨#[0]⟩, ⟨#[]⟩, ⟨#[2]⟩] := by
    have hcomputed : (Formula.loopWithExit.graph.partition >>=
        condensation Formula.loopWithExit.graph) = .ok #[⟨#[]⟩, ⟨#[0]⟩, ⟨#[]⟩, ⟨#[2]⟩] := by
      decide +kernel
    rw [hp] at hcomputed
    exact Except.ok.inj (hcond.symm.trans hcomputed)
  -- the paths between two vertices are those between their components, which have been computed
  have hpath : ∀ {u v : UInt32} {l m : Lit} {i j : Nat}, Formula.loopWithExit.graph.lit u = .ok l →
      Formula.loopWithExit.graph.lit v = .ok m → p.componentOf? l = some i →
      p.componentOf? m = some j →
      (Formula.loopWithExit.graph.Reaches u v ↔ Relation.ReflTransGen (RowEdge rows) i j) := by
    intro u v l m i j hu hv hi hj
    rcases hpaths u v l m hu hv with ⟨i', j', hi', hj', hiff⟩
    cases hi.symm.trans hi'
    cases hj.symm.trans hj'
    exact hiff
  refine ⟨Formula.built_loopWithExit, hsize, p, rows, hp, hcond, hlen, hrows, hi, hj, ?_, ?_⟩
  · rw [hpath htwo hthree hi hj, hrows]
    exact Relation.ReflTransGen.single ⟨⟨#[0]⟩, rfl, 0, by simp, rfl⟩
  · rw [hpath hthree htwo hj hi, hrows]
    intro hback
    rcases hback.cases_head with heq | ⟨k, ⟨row, hrow, id, hid, _⟩, _⟩
    · cases heq
    · cases hrow
      simp at hid

end TwoCnf
