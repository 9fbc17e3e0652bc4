import Mathlib.Data.List.Perm.Subperm
import TwoCnf.Proofs.Formula.Coverage
import TwoCnf.Proofs.Implication.Reachability

/-!
# Growth — further insertions only append

Clauses, literals and successors are listed in the order in which they first come up, so what a formula
holds stays in front of all that is added later.

* `Formula.Precedes` — one formula holds what another holds, with more appended to each list;
* `Formula.precedes_vertex`, `Formula.precedes_link`, `Formula.precedes_record` — each part of an insertion
  appends, and so does the whole (`Formula.precedes_insert`);
* `Formula.Precedes.vertexOf?`, `Formula.Precedes.successors`, `Formula.Precedes.reaches` — vertices, rows
  and paths of the implication graph last;
* `Formula.Precedes.size_lt_iff` — there are more vertices exactly if there is a new variable.
-/

namespace TwoCnf

theorem Row.ids_isPrefix_insert (row : Row) (id : UInt32) :
    row.ids.toList <+: (row.insert id).ids.toList := by
  unfold Row.insert
  split
  · exact List.prefix_refl _
  · rw [Array.toList_push]
    exact List.prefix_append _ _

namespace Formula

/-- `f'` holds what `f` holds, with more appended to the clauses, to the literals and to each row. -/
structure Precedes (f f' : Formula) : Prop where
  clauses : f.clauses.toList <+: f'.clauses.toList
  lits : f.numbering.lits.toList <+: f'.numbering.lits.toList
  rows : ∀ (i : Nat) (row : Row), f.rows[i]? = some row →
    ∃ row', f'.rows[i]? = some row' ∧ row.ids.toList <+: row'.ids.toList

theorem Precedes.refl (f : Formula) : f.Precedes f where
  clauses := List.prefix_refl _
  lits := List.prefix_refl _
  rows := fun _ row hrow => ⟨row, hrow, List.prefix_refl _⟩

theorem Precedes.trans {f f' f'' : Formula} (h₁ : f.Precedes f') (h₂ : f'.Precedes f'') :
    f.Precedes f'' where
  clauses := h₁.clauses.trans h₂.clauses
  lits := h₁.lits.trans h₂.lits
  rows := by
    intro i row hrow
    rcases h₁.rows i row hrow with ⟨row', hrow', hle⟩
    rcases h₂.rows i row' hrow' with ⟨row'', hrow'', hle'⟩
    exact ⟨row'', hrow'', hle.trans hle'⟩

/-! ## The parts of an insertion -/

theorem precedes_vertex (f : Formula) (l : Lit) : f.Precedes (f.vertex l).2 := by
  cases h : f.numbering.id? l with
  | some id =>
      rw [vertex_of_some h]
      exact Precedes.refl f
  | none =>
      rw [vertex_of_none h]
      refine ⟨List.prefix_refl _, ?_, ?_⟩
      · show f.numbering.lits.toList <+: (f.numbering.lits.push l).toList
        rw [Array.toList_push]
        exact List.prefix_append _ _
      · intro i row hrow
        have hlt := (Array.getElem?_eq_some_iff.1 hrow).1
        refine ⟨row, ?_, List.prefix_refl _⟩
        rw [Array.getElem?_push, if_neg (Nat.ne_of_lt hlt)]
        exact hrow

theorem precedes_link (f : Formula) (source target : UInt32) :
    f.Precedes (f.link source target) where
  clauses := List.prefix_refl _
  lits := List.prefix_refl _
  rows := by
    intro i row hrow
    unfold link
    rw [Array.getElem?_modify, hrow]
    split
    · exact ⟨row.insert target, rfl, row.ids_isPrefix_insert target⟩
    · exact ⟨row, rfl, List.prefix_refl _⟩

theorem precedes_record (f : Formula) (c : Clause) : f.Precedes (f.record c) where
  clauses := by
    rw [clauses_record, Array.toList_push]
    exact List.prefix_append _ _
  lits := List.prefix_refl _
  rows := fun _ row hrow => ⟨row, hrow, List.prefix_refl _⟩

theorem precedes_withVertices (f : Formula) (c : Clause) : f.Precedes (f.withVertices c) :=
  (((precedes_vertex f _).trans (precedes_vertex _ _)).trans (precedes_vertex _ _)).trans
    (precedes_vertex _ _)

/-- Inserting a clause appends. -/
theorem precedes_insert (f : Formula) (c : Clause) : f.Precedes (f.insert c) := by
  rcases insert_eq f c with ⟨a, notA, b, notB, h⟩
  rw [h]
  exact (((precedes_withVertices f c).trans (precedes_link _ _ _)).trans (precedes_link _ _ _)).trans
    (precedes_record _ _)

/-! ## What lasts -/

namespace Precedes

variable {f f' : Formula}

theorem size_le (h : f.Precedes f') : f.numbering.size ≤ f'.numbering.size :=
  h.lits.length_le

theorem mem_clauses (h : f.Precedes f') {c : Clause} (hc : c ∈ f.clauses) : c ∈ f'.clauses :=
  Array.mem_def.2 (h.clauses.subset (Array.mem_def.1 hc))

theorem lit? (h : f.Precedes f') {v : UInt32} {l : Lit} (hv : f.numbering.lit? v = some l) :
    f'.numbering.lit? v = some l := by
  unfold Numbering.lit? at hv ⊢
  rw [← Array.getElem?_toList] at hv ⊢
  rcases h.lits with ⟨more, hlits⟩
  rw [← hlits, List.getElem?_append_left (List.getElem?_eq_some_iff.1 hv).1]
  exact hv

/-- A literal keeps its vertex. -/
theorem vertexOf? (h : f.Precedes f') (hf : f.Coherent) (hf' : f'.Coherent) {l : Lit} {v : UInt32}
    (hv : f.graph.vertexOf? l = some v) : f'.graph.vertexOf? l = some v :=
  (hf'.faithful l v).2 (h.lit? ((hf.faithful l v).1 hv))

/-- The successors of a vertex stay in front. -/
theorem successors (h : f.Precedes f') {v : UInt32} (hv : v.toNat < f.rows.size) :
    ∃ ws ws', f.graph.successors v = .ok ws ∧ f'.graph.successors v = .ok ws' ∧ ws <+: ws' := by
  have hrow := Array.getElem?_eq_getElem hv
  rcases h.rows _ _ hrow with ⟨row', hrow', hle⟩
  exact ⟨_, _, successors_graph hrow, successors_graph hrow', hle⟩

theorem edge (h : f.Precedes f') {u v : UInt32} (huv : f.graph.Edge u v) : f'.graph.Edge u v := by
  rw [edge_graph] at huv ⊢
  rcases huv with ⟨row, hrow, hv⟩
  rcases h.rows _ _ hrow with ⟨row', hrow', hle⟩
  exact ⟨row', hrow', Array.mem_def.2 (hle.subset (Array.mem_def.1 hv))⟩

theorem reaches (h : f.Precedes f') {u v : UInt32} (huv : f.graph.Reaches u v) :
    f'.graph.Reaches u v :=
  Relation.ReflTransGen.mono (fun _ _ => h.edge) u v huv

/-- There are more vertices exactly if some clause is about a new variable. -/
theorem size_lt_iff (h : f.Precedes f') (hf : f.Built) (hf' : f'.Built) :
    f.numbering.size < f'.numbering.size ↔
      ∃ x, (∃ c ∈ f'.clauses, c.Mentions x) ∧ ¬ ∃ c ∈ f.clauses, c.Mentions x := by
  have hmem : ∀ l, l ∈ f.numbering.lits.toList ↔ ∃ c ∈ f.clauses, c.Mentions l.var := by
    intro l
    rw [← Array.mem_def, hf.indexed.mem_iff, hf.contains_iff]
  have hmem' : ∀ l, l ∈ f'.numbering.lits.toList ↔ ∃ c ∈ f'.clauses, c.Mentions l.var := by
    intro l
    rw [← Array.mem_def, hf'.indexed.mem_iff, hf'.contains_iff]
  constructor
  · intro hlt
    by_contra hnone
    push Not at hnone
    -- without a new variable there is no new literal, and none is listed twice
    have hsubset : f'.numbering.lits.toList ⊆ f.numbering.lits.toList := by
      intro l hl
      exact (hmem l).2 (hnone l.var ((hmem' l).1 hl))
    have hle := (hf'.indexed.nodup.subperm hsubset).length_le
    exact absurd hlt (Nat.not_lt.2 hle)
  · rintro ⟨x, hnew, hold⟩
    refine Nat.lt_of_le_of_ne h.size_le ?_
    intro hsize
    have hlits : f.numbering.lits.toList = f'.numbering.lits.toList := h.lits.eq_of_length hsize
    have hx : (⟨x, true⟩ : Lit) ∈ f'.numbering.lits.toList := (hmem' _).2 hnew
    rw [← hlits] at hx
    exact hold ((hmem _).1 hx)

end Precedes
end Formula
end TwoCnf
