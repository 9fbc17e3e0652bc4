import TwoCnf.Proofs.Formula.Bookkeeping

/-!
# Succession — the order in which a row lists its successors

A row lists what its literal implies in the order in which the clauses first say so.

* `Clause.implications` — the two implications of a clause, in the order in which they are entered;
* `impliedFrom` — what some implications lead to from a literal, each target once;
* `Formula.Ordered` — the rows list what some implications lead to, in order. Making a vertex keeps this
  (`Formula.Ordered.vertex`), and a link is one more implication (`Formula.Ordered.link`);
* `Formula.Built.ordered` — so the rows of every formula list the implications of its clauses in order.
-/

namespace TwoCnf

/-- The implications of a clause, in the order in which they are entered. -/
def Clause.implications (c : Clause) : List (Lit × Lit) :=
  [(c.left.neg, c.right), (c.right.neg, c.left)]

/-- What some implications lead to from a literal, each target once and in the order in which it first
comes up. -/
def impliedFrom (es : List (Lit × Lit)) (l : Lit) : List Lit :=
  ((es.filter fun e => e.1 = l).map Prod.snd).eraseDups

theorem impliedFrom_eq_nil {es : List (Lit × Lit)} {l : Lit} (h : ∀ e ∈ es, e.1 ≠ l) :
    impliedFrom es l = [] := by
  have hnone : (es.filter fun e => e.1 = l) = [] := by
    rw [List.filter_eq_nil_iff]
    intro e he
    simpa using h e he
  rw [impliedFrom, hnone]
  rfl

theorem impliedFrom_snoc_of_ne (es : List (Lit × Lit)) {k l m : Lit} (h : k ≠ l) :
    impliedFrom (es ++ [(k, m)]) l = impliedFrom es l := by
  unfold impliedFrom
  rw [List.filter_append, List.filter_cons_of_neg (by simpa using h), List.filter_nil, List.append_nil]

theorem impliedFrom_snoc_self (es : List (Lit × Lit)) (l m : Lit) :
    impliedFrom (es ++ [(l, m)]) l =
      if m ∈ impliedFrom es l then impliedFrom es l else impliedFrom es l ++ [m] := by
  unfold impliedFrom
  rw [List.filter_append, List.filter_cons_of_pos (by simp), List.filter_nil, List.map_append,
    List.map_singleton, eraseDups_snoc]
  simp only [List.mem_eraseDups]

namespace Formula

/-- The row of every literal lists what some implications lead to from it, in order. -/
structure Ordered (f : Formula) (es : List (Lit × Lit)) : Prop where
  indexed : f.Indexed
  faithful : f.numbering.Faithful
  source : ∀ e ∈ es, f.contains e.1 = true
  target_lt : ∀ u v, f.Links u v → v.toNat < f.numbering.size
  row : ∀ l u row, f.numbering.id? l = some u → f.rows[u.toNat]? = some row →
    row.ids.toList.map f.numbering.lit? = (impliedFrom es l).map some

namespace Ordered

variable {f : Formula} {es : List (Lit × Lit)}

/-- A new vertex has an empty row, and nothing has been implied from its literal so far. -/
theorem vertex (h : f.Ordered es) (k : Lit) (hsize : (f.vertex k).2.numbering.size < UInt32.size) :
    (f.vertex k).2.Ordered es := by
  have hgrows := grows_vertex f k
  have hlt : f.numbering.size < UInt32.size := Nat.lt_of_le_of_lt hgrows.size_le hsize
  refine
    { indexed := hgrows.indexed h.indexed
      faithful := hgrows.faithful h.faithful hsize
      source := fun e he => (contains_vertex f k e.1).2 (Or.inr (h.source e he))
      target_lt := ?_
      row := ?_ }
  · intro u v hlinks
    exact Nat.lt_of_lt_of_le (h.target_lt u v ((hgrows.links_iff u v).1 hlinks)) hgrows.size_le
  · cases hk : f.numbering.id? k with
    | some id =>
        rw [vertex_of_some hk]
        exact h.row
    | none =>
        have hrows := h.indexed.rows_size
        rw [vertex_of_none hk]
        intro l u row hl hrow
        replace hl : (f.numbering.push k).id? l = some u := hl
        replace hrow : (f.rows.push .empty)[u.toNat]? = some row := hrow
        show row.ids.toList.map (f.numbering.push k).lit? = _
        rw [Numbering.id?_push] at hl
        rw [Array.getElem?_push] at hrow
        by_cases hlk : l = k
        · -- the new literal: its row has just been made
          subst hlk
          rw [if_pos rfl] at hl
          have hu : u.toNat = f.rows.size := by
            rw [← Option.some.inj hl, UInt32.toNat_ofNat_of_lt' hlt, hrows]
          rw [if_pos hu] at hrow
          have hnone : ∀ e ∈ es, e.1 ≠ l := by
            intro e he heq
            have hcontains := h.source e he
            rw [heq, contains, hk] at hcontains
            cases hcontains
          rw [impliedFrom_eq_nil hnone, ← Option.some.inj hrow]
          rfl
        · rw [if_neg hlk] at hl
          have hu : u.toNat < f.numbering.size :=
            Numbering.toNat_lt_of_lit? ((h.faithful l u).1 hl)
          rw [if_neg (by omega)] at hrow
          rw [← h.row l u row hl hrow]
          -- the targets of an old row are numbered, so the new literal is not among them
          apply List.map_congr_left
          intro w hw
          have hw' := h.target_lt u w ⟨row, hrow, Array.mem_def.2 hw⟩
          rw [Numbering.lit?_push, if_neg (Nat.ne_of_lt hw')]

/-- The row of `k` lists the vertex of `m` when `m` is implied from `k`. -/
theorem mem_row_iff (h : f.Ordered es) {k m : Lit} {source target : UInt32} {row : Row}
    (hk : f.numbering.id? k = some source) (hrow : f.rows[source.toNat]? = some row)
    (hm : f.numbering.id? m = some target) : target ∈ row.ids ↔ m ∈ impliedFrom es k := by
  rw [← List.mem_map_of_injective (Option.some_injective Lit), ← h.row k source row hk hrow,
    List.mem_map, Array.mem_def]
  constructor
  · intro hin
    exact ⟨target, hin, (h.faithful m target).1 hm⟩
  · rintro ⟨w, hw, hlit⟩
    have hid := (h.faithful m w).2 hlit
    rw [hm] at hid
    rw [Option.some.inj hid]
    exact hw

/-- A link from the vertex of `k` to that of `m` is one more implication. -/
theorem link (h : f.Ordered es) {k m : Lit} {source target : UInt32}
    (hk : f.numbering.id? k = some source) (hm : f.numbering.id? m = some target) :
    (f.link source target).Ordered (es ++ [(k, m)]) := by
  have hcontains : f.contains k = true := Option.isSome_iff_exists.2 ⟨source, hk⟩
  refine
    { indexed := h.indexed.link source target
      faithful := h.faithful
      source := ?_
      target_lt := ?_
      row := ?_ }
  · intro e he
    rcases List.mem_append.1 he with hold | hnew
    · exact h.source e hold
    · rw [List.mem_singleton.1 hnew]
      exact hcontains
  · intro u v hlinks
    rcases (links_link f source target u v).1 hlinks with hold | ⟨_, rfl, _⟩
    · exact h.target_lt u v hold
    · exact Numbering.toNat_lt_of_lit? ((h.faithful m v).1 hm)
  · intro l u row hl hrow
    replace hl : f.numbering.id? l = some u := hl
    show row.ids.toList.map f.numbering.lit? = _
    unfold Formula.link at hrow
    simp only [Array.getElem?_modify] at hrow
    by_cases hu : source.toNat = u.toNat
    · -- the row of the source: its literal is `k`
      have hlk : k = l := by
        have hlit := (h.faithful l u).1 hl
        rw [← UInt32.toNat_inj.1 hu, (h.faithful k source).1 hk] at hlit
        exact Option.some.inj hlit
      subst hlk
      rw [if_pos hu] at hrow
      rcases Option.map_eq_some_iff.1 hrow with ⟨old, hold, rfl⟩
      have hnames := h.row k u old hl hold
      have hmem := h.mem_row_iff hl hold hm
      rw [impliedFrom_snoc_self]
      unfold Row.insert
      by_cases hin : target ∈ old.ids
      · rw [if_pos (by simpa using hin), if_pos (hmem.1 hin)]
        exact hnames
      · rw [if_neg (by simpa using hin), if_neg (mt hmem.2 hin), Array.toList_push, List.map_append,
          List.map_append, hnames, List.map_singleton, List.map_singleton,
          (h.faithful m target).1 hm]
    · rw [if_neg hu] at hrow
      have hne : k ≠ l := by
        rintro rfl
        rw [hk] at hl
        exact hu (by rw [Option.some.inj hl])
      rw [impliedFrom_snoc_of_ne es hne]
      exact h.row l u row hl hrow

theorem withVertices (h : f.Ordered es) (c : Clause)
    (hsize : (f.withVertices c).numbering.size < UInt32.size) : (f.withVertices c).Ordered es := by
  -- no formula on the way has more vertices than the last one
  have hsize₃ := Nat.lt_of_le_of_lt (grows_vertex _ c.right.neg).size_le hsize
  have hsize₂ := Nat.lt_of_le_of_lt (grows_vertex _ c.right).size_le hsize₃
  have hsize₁ := Nat.lt_of_le_of_lt (grows_vertex _ c.left.neg).size_le hsize₂
  exact (((h.vertex c.left hsize₁).vertex c.left.neg hsize₂).vertex c.right hsize₃).vertex
    c.right.neg hsize

theorem record (h : f.Ordered es) (c : Clause) : (f.record c).Ordered es where
  indexed := h.indexed.record c
  faithful := h.faithful
  source := h.source
  target_lt := h.target_lt
  row := h.row

theorem insert (h : f.Ordered es) (c : Clause) (hsize : (f.insert c).numbering.size < UInt32.size) :
    (f.insert c).Ordered (es ++ c.implications) := by
  rw [numbering_insert] at hsize
  rcases exists_insert_eq h.indexed c with ⟨a, notA, b, notB, _, _, ha, hnotA, hb, hnotB, heq⟩
  have himplications : es ++ c.implications =
      es ++ [(c.left.neg, c.right)] ++ [(c.right.neg, c.left)] := by
    rw [List.append_assoc]
    rfl
  rw [heq, himplications]
  have hfirst := (h.withVertices c hsize).link hnotA hb
  -- the first link leaves the numbers as they are
  rw [← numbering_link _ notA b] at ha hnotB
  exact (hfirst.link hnotB ha).record c

end Ordered

theorem ordered_empty : Formula.empty.Ordered [] where
  indexed := coherent_empty.indexed
  faithful := coherent_empty.faithful
  source := by
    intro e he
    cases he
  target_lt := by
    intro u v hlinks
    rcases (coherent_empty.links_iff u v).1 hlinks with ⟨c, hc, _⟩
    simp [Formula.empty] at hc
  row := by
    intro l u row _ hrow
    simp [Formula.empty] at hrow

/-- The rows of a formula list the implications of its clauses in order. -/
theorem Built.ordered {f : Formula} (hf : f.Built) (hsize : f.numbering.size < UInt32.size) :
    f.Ordered (f.clauses.toList.flatMap Clause.implications) := by
  induction hf with
  | empty =>
      exact ordered_empty
  | insert _ hins ih =>
      rcases insertSigned_eq_ok.1 hins with ⟨_, rfl⟩
      rw [clauses_insert, Array.toList_push, List.flatMap_append, List.flatMap_singleton]
      exact (ih (Nat.lt_of_le_of_lt (size_le_insert _ _) hsize)).insert _ hsize

end Formula
end TwoCnf
