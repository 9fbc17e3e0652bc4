import Mathlib.Logic.Equiv.Basic
import TwoCnf.Proofs.Component.Renaming
import TwoCnf.Proofs.Solver.Decision

/-!
# Renaming — the answers about renamed clauses are the renamed answers

* `Lit.Expressible`, `Lit.half` — the literals that a signed half stands for, and that half;
* `renamed` — a list of clauses with all literals renamed;
* `Partition.Renamed.conflict?` — the conflict among renamed components is the renamed conflict;
* `Formula.Renamed.eval?_resolve` — a literal and its renamed form have the same value in the two models;
* `answers_renamed` — numbers, rows, components, conflict and values of a renamed list.
-/

namespace TwoCnf

/-! ## Renamed lists -/

/-- Some signed half stands for the literal. -/
def Lit.Expressible (l : Lit) : Prop :=
  ∃ x : Int32, Lit.ofSigned? x = some l

/-- The signed half that stands for a literal, if there is one. -/
def Lit.half (l : Lit) : Int32 :=
  Int32.ofInt l.toInt

theorem Lit.toInt_of_ofSigned? {x : Int32} {l : Lit} (h : Lit.ofSigned? x = some l) :
    l.toInt = x.toInt := by
  unfold Lit.ofSigned? at h
  split at h
  · cases h
  · cases h
    have hzero : (0 : Int32).toInt = 0 := rfl
    have hpos : 0 < x ↔ 0 < x.toInt := by rw [Int32.lt_iff_toInt_lt, hzero]
    unfold Lit.toInt
    simp only [decide_eq_true_eq, toNat_magnitude, hpos]
    split <;> omega

theorem Lit.ofSigned?_half {l : Lit} (h : l.Expressible) : Lit.ofSigned? l.half = some l := by
  rcases h with ⟨x, hx⟩
  rw [half, Lit.toInt_of_ofSigned? hx, Int32.ofInt_toInt]
  exact hx

/-- The halves of a clause with both literals renamed. -/
def Renaming.halves (r : Renaming) (halves : Int32 × Int32) : Int32 × Int32 :=
  ((r.map (Clause.ofHalves halves).left).half, (r.map (Clause.ofHalves halves).right).half)

/-- A list of clauses with all literals renamed. -/
def renamed (r : Renaming) (clauses : List (Int32 × Int32)) : List (Int32 × Int32) :=
  clauses.map r.halves

/-- All renamed literals can be written as signed halves. -/
def Fits (r : Renaming) (clauses : List (Int32 × Int32)) : Prop :=
  ∀ halves ∈ clauses, (r.map (Clause.ofHalves halves).left).Expressible ∧
    (r.map (Clause.ofHalves halves).right).Expressible

variable {r : Renaming} {clauses : List (Int32 × Int32)}

/-- Renamed halves stand for the renamed clause. -/
theorem Fits.ofHalves (h : Fits r clauses) {halves : Int32 × Int32} (hmem : halves ∈ clauses) :
    ((r.halves halves).1 ≠ 0 ∧ (r.halves halves).2 ≠ 0) ∧
      Clause.ofHalves (r.halves halves) = (Clause.ofHalves halves).rename r := by
  rcases h halves hmem with ⟨hleft, hright⟩
  have hsigned : Clause.ofSigned (r.halves halves).1 (r.halves halves).2 =
      .ok ((Clause.ofHalves halves).rename r) := by
    unfold Renaming.halves
    rw [Clause.ofSigned, Lit.ofSigned?_half hleft, Lit.ofSigned?_half hright]
    rfl
  rcases Clause.ofSigned_eq_ok.1 hsigned with ⟨hne, heq⟩
  exact ⟨hne, heq.symm⟩

theorem Fits.ne_zero (h : Fits r clauses) :
    ∀ halves ∈ renamed r clauses, halves.1 ≠ 0 ∧ halves.2 ≠ 0 := by
  intro halves hhalves
  rcases List.mem_map.1 hhalves with ⟨old, hold, rfl⟩
  exact (h.ofHalves hold).1

/-- Clause by clause, the two solvers insert a clause and its renamed form. -/
theorem Fits.formula (h : Fits r clauses) :
    (Solver.ofHalves clauses).formula.Renamed r (Solver.ofHalves (renamed r clauses)).formula := by
  induction clauses using List.reverseRecOn with
  | nil =>
      exact Formula.Renamed.empty r
  | append_singleton before halves ih =>
      have hbefore : Fits r before := fun old hold => h old (List.mem_append_left _ hold)
      have hlast := (h.ofHalves (List.mem_append_right _ List.mem_cons_self)).2
      have hsnoc : renamed r (before ++ [halves]) = renamed r before ++ [r.halves halves] :=
        List.map_append
      rw [hsnoc, Solver.ofHalves_snoc, Solver.ofHalves_snoc, hlast]
      exact (ih hbefore).insert (Clause.ofHalves halves)

/-! ## Conflicts -/

/-- Among renamed components, the same place holds the first conflict. -/
theorem Partition.Renamed.conflict? {p p' : Partition} (h : p.Renamed r p') :
    p'.conflict? = p.conflict?.map r.var := by
  unfold Partition.conflict?
  rw [h.components, Array.toList_map, List.zipIdx_map, List.findSome?_map, List.map_findSome?]
  -- place by place, the same literal is found, under its new name
  congr 1
  funext entry
  have hfind : ((entry.1.map r.map).find? fun l => p'.componentOf? l.neg == some entry.2) =
      (entry.1.find? fun l => p.componentOf? l.neg == some entry.2).map r.map := by
    rw [List.find?_map]
    congr 2
    funext l
    rw [Function.comp_apply, ← r.map_neg, h.componentOf?]
  simp only [Function.comp_apply, Prod.map_fst, Prod.map_snd, id_eq, hfind, Option.map_map]
  congr 1
  funext l
  exact r.var_map l

/-! ## Values -/

/-- Literals keep their values if the components of a formula are renamed. -/
theorem Formula.Renamed.eval?_resolve {f f' : Formula} {p p' : Partition} (h : f.Renamed r f')
    (hpart : p.Renamed r p') (hf : f.Built) (hf' : f'.Built) (hsize : f.numbering.size < UInt32.size)
    (hp : p.Represents f) (hp' : p'.Represents f') (hnone : p.conflict? = none) {l : Lit}
    (hl : f.contains l = true) :
    ∃ b, l.eval? (p.resolve f.maxVar) = some b ∧ (r.map l).eval? (p'.resolve f'.maxVar) = some b := by
  have hsize' : f'.numbering.size < UInt32.size := by
    rw [h.numbering.size]
    exact hsize
  have hnone' : p'.conflict? = none := by
    rw [hpart.conflict?, hnone]
    rfl
  rcases (hp.exists_number_iff l).2 hl with ⟨i, hi⟩
  rcases hp.exists_neg (hf.coherent hsize) hi with ⟨j, hj⟩
  -- the renamed literal and its negation have the same numbers
  have hi' : p'.componentOf? (r.map l) = some i := by
    rw [hpart.componentOf?]
    exact hi
  have hj' : p'.componentOf? (r.map l).neg = some j := by
    rw [← r.map_neg, hpart.componentOf?]
    exact hj
  exact ⟨decide (i < j),
    Formula.eval?_resolve hf (hf.coherent hsize) hp (hp.tidy.conflict?_eq_none_iff.1 hnone) hi hj,
    Formula.eval?_resolve hf' (hf'.coherent hsize') hp' (hp'.tidy.conflict?_eq_none_iff.1 hnone') hi' hj'⟩

/-! ## Answers -/

/-- The answers about a list of clauses over fewer than `2147483648` variables and about its renamed form.
A literal and its renamed form have the same vertex, the rows are the same, and the components are the
renamed ones in the same order. The conflict is the renamed one; without a conflict, the literals have the
same values in both models. -/
theorem answers_renamed (r : Renaming) (clauses : List (Int32 × Int32))
    (hz : ∀ halves ∈ clauses, halves.1 ≠ 0 ∧ halves.2 ≠ 0)
    (hvars : (varsOf clauses).toFinset.card < 2147483648) (hfits : Fits r clauses) :
    ∃ g g' p p' conflict model model',
      Solver.answer? Solver.graph clauses = some g ∧
      Solver.answer? Solver.graph (renamed r clauses) = some g' ∧
      (∀ l, g'.vertexOf? (r.map l) = g.vertexOf? l) ∧ g'.offsets = g.offsets ∧ g'.targets = g.targets ∧
      Solver.answer? Solver.partition clauses = some p ∧
      Solver.answer? Solver.partition (renamed r clauses) = some p' ∧
      p'.components = p.components.map (List.map r.map) ∧
      Solver.answer? Solver.conflict? clauses = some conflict ∧
      Solver.answer? Solver.conflict? (renamed r clauses) = some (conflict.map r.var) ∧
      Solver.answer? Solver.model? clauses = some model ∧
      Solver.answer? Solver.model? (renamed r clauses) = some model' ∧
      (conflict = none → ∃ A A', model = some A ∧ model' = some A' ∧
        ∀ l : Lit, l.var ∈ varsOf clauses → ∃ b, l.eval? A = some b ∧ (r.map l).eval? A' = some b) := by
  have hbuilt := Solver.built_ofHalves hz
  have hbuilt' := Solver.built_ofHalves hfits.ne_zero
  have hsize := Solver.size_ofHalves_lt hz hvars
  have hformula := hfits.formula
  have hsize' : (Solver.ofHalves (renamed r clauses)).formula.numbering.size < UInt32.size := by
    rw [hformula.numbering.size]
    exact hsize
  rcases Solver.exists_answers hz hsize with ⟨a, hgraph, hpartition, hrep, hanswer⟩
  rcases Solver.exists_answers hfits.ne_zero hsize' with ⟨a', hgraph', hpartition', hrep', hanswer'⟩
  -- the two graphs are renamed, and with them the components that are found
  have hrenamed : a.graph.Renamed r a'.graph := by
    rw [hgraph, hgraph']
    exact hformula.graph
  have hcomponents : a.partition.Renamed r a'.partition := by
    rcases hrenamed.exists_partition hpartition with ⟨p', hp', hpart⟩
    rw [hpartition'] at hp'
    cases hp'
    exact hpart
  refine ⟨a.graph, a'.graph, a.partition, a'.partition, a.partition.conflict?, _, _,
    hanswer (Solver.graph_eq _), hanswer' (Solver.graph_eq _), hrenamed.vertexOf?, hrenamed.offsets,
    hrenamed.targets, hanswer (Solver.partition_eq _), hanswer' (Solver.partition_eq _),
    hcomponents.components, hanswer (Solver.conflict?_eq _), ?_, hanswer (Solver.model?_eq _),
    hanswer' (Solver.model?_eq _), ?_⟩
  · rw [← hcomponents.conflict?]
    exact hanswer' (Solver.conflict?_eq _)
  · intro hnone
    have hnone' : a'.partition.conflict? = none := by
      rw [hcomponents.conflict?, hnone]
      rfl
    refine ⟨a.partition.resolve (Solver.ofHalves clauses).formula.maxVar,
      a'.partition.resolve (Solver.ofHalves (renamed r clauses)).formula.maxVar, ?_, ?_, ?_⟩
    · rw [Analysis.model?, hnone]
      rfl
    · rw [Analysis.model?, hnone']
      rfl
    · intro l hl
      have hcontains := (hbuilt.contains_iff l).2 ((Solver.exists_mentions_iff clauses l.var).2 hl)
      exact hformula.eval?_resolve hcomponents hbuilt hbuilt' hsize hrep hrep' hnone hcontains

/-- Renames `1` to `-2147483648`, whose negation cannot be written as a signed half. -/
def Renaming.toLowest : Renaming :=
  .ofVars (Equiv.swap 1 2147483648) (Equiv.injective _) (· == 1)

theorem answers_renamed_toLowest :
    (∀ halves ∈ [((1 : Int32), (2 : Int32)), (1, -2), (-2, 3)], halves.1 ≠ 0 ∧ halves.2 ≠ 0) ∧
    (varsOf [(1, 2), (1, -2), (-2, 3)]).toFinset.card < 2147483648 ∧
    Fits .toLowest [(1, 2), (1, -2), (-2, 3)] ∧
    renamed .toLowest [(1, 2), (1, -2), (-2, 3)] = [(-2147483648, 2), (-2147483648, -2), (-2, 3)] ∧
    ∃ A A', Solver.answer? Solver.model? [(1, 2), (1, -2), (-2, 3)] = some (some A) ∧
      Solver.answer? Solver.model? [(-2147483648, 2), (-2147483648, -2), (-2, 3)] = some (some A') ∧
      ∀ l : Lit, l.var ∈ varsOf [(1, 2), (1, -2), (-2, 3)] →
        ∃ b, l.eval? A = some b ∧ (Renaming.toLowest.map l).eval? A' = some b := by
  have hz : ∀ halves ∈ [((1 : Int32), (2 : Int32)), (1, -2), (-2, 3)],
      halves.1 ≠ 0 ∧ halves.2 ≠ 0 := by
    simp only [List.forall_mem_cons, List.not_mem_nil, false_implies, implies_true, and_true]
    decide
  have hvars : (varsOf [(1, 2), (1, -2), (-2, 3)]).toFinset.card < 2147483648 := by decide +kernel
  have hfits : Fits .toLowest [(1, 2), (1, -2), (-2, 3)] := by
    simp only [Fits, List.forall_mem_cons, List.not_mem_nil, false_implies, implies_true, and_true]
    exact ⟨⟨⟨-2147483648, by decide +kernel⟩, ⟨2, by decide +kernel⟩⟩,
      ⟨⟨-2147483648, by decide +kernel⟩, ⟨-2, by decide +kernel⟩⟩,
      ⟨-2, by decide +kernel⟩, ⟨3, by decide +kernel⟩⟩
  have hrenamed : renamed .toLowest [(1, 2), (1, -2), (-2, 3)] =
      [(-2147483648, 2), (-2147483648, -2), (-2, 3)] := by decide +kernel
  rcases answers_renamed .toLowest _ hz hvars hfits with
    ⟨_, _, _, _, conflict, model, model', _, _, _, _, _, _, _, _, hconflict, _, hmodel, hmodel', hvalues⟩
  have hnone : Solver.answer? Solver.conflict? [(1, 2), (1, -2), (-2, 3)] = some none := by
    decide +kernel
  rw [hconflict] at hnone
  rcases hvalues (Option.some.inj hnone) with ⟨A, A', rfl, rfl, hall⟩
  rw [hrenamed] at hmodel'
  exact ⟨hz, hvars, hfits, hrenamed, A, A', hmodel, hmodel', hall⟩

end TwoCnf
