import TwoCnf.Proofs.Formula.Coverage

/-!
# Bookkeeping — what a formula stores after any calls

* `Formula.attempt`, `Formula.collect` — one call that adds a clause, accepted or refused, and any number
  of calls in a row;
* `acceptedOf` — the clauses of the calls without a zero half, which are the accepted ones;
* `Formula.lits_vertex`, `Formula.Built.lits_eq` — the literals are numbered in the order in which the
  clauses first bring them up;
* `Formula.Exact` — all that is stored for some clauses is as it should be;
* `collect_exact` — this holds after any calls, as long as there are numbers left.
-/

namespace TwoCnf

/-! ## Calls -/

/-- The formula that one call leaves, whether it adds the clause of two signed halves or refuses it. -/
def Formula.attempt (f : Formula) (halves : Int32 × Int32) : Formula :=
  (f.insertSigned halves.1 halves.2).2

/-- The formula after some calls. -/
def Formula.collect (calls : List (Int32 × Int32)) : Formula :=
  calls.foldl Formula.attempt .empty

/-- The clauses of the calls without a zero half, in order. -/
def acceptedOf (calls : List (Int32 × Int32)) : List Clause :=
  (admissible calls).map Clause.ofHalves

theorem acceptedOf_snoc (calls : List (Int32 × Int32)) (halves : Int32 × Int32) :
    acceptedOf (calls ++ [halves]) =
      acceptedOf calls ++ (admissible [halves]).map Clause.ofHalves := by
  unfold acceptedOf admissible
  rw [List.filter_append, List.map_append]

namespace Formula

theorem collect_snoc (calls : List (Int32 × Int32)) (halves : Int32 × Int32) :
    collect (calls ++ [halves]) = (collect calls).attempt halves := by
  unfold collect
  rw [List.foldl_append]
  rfl

theorem attempt_of_ne_zero (f : Formula) {halves : Int32 × Int32}
    (hne : halves.1 ≠ 0 ∧ halves.2 ≠ 0) :
    f.insertSigned halves.1 halves.2 = (.ok (Clause.ofHalves halves), f.attempt halves) ∧
      f.attempt halves = f.insert (Clause.ofHalves halves) := by
  have hins : f.insertSigned halves.1 halves.2 =
      (.ok (Clause.ofHalves halves), f.insert (Clause.ofHalves halves)) :=
    insertSigned_eq_ok.2 ⟨Clause.ofSigned_eq_ok.2 ⟨hne, rfl⟩, rfl⟩
  have hattempt : f.attempt halves = f.insert (Clause.ofHalves halves) := by
    rw [attempt, hins]
  exact ⟨by rw [hattempt, hins], hattempt⟩

/-- The formula that a refused call leaves is the one before it. -/
theorem attempt_of_zero (f : Formula) {halves : Int32 × Int32}
    (hzero : halves.1 = 0 ∨ halves.2 = 0) : f.attempt halves = f := by
  have hins : f.insertSigned halves.1 halves.2 = (.error ⟨halves.1, halves.2⟩, f) :=
    insertSigned_eq_error.2 ⟨Clause.ofSigned_eq_error.2 ⟨hzero, rfl⟩, rfl⟩
  rw [attempt, hins]

/-- One more call keeps what is said of the formula after any calls: it has been built by insertions, and
its clauses are the accepted ones. -/
theorem built_collect (calls : List (Int32 × Int32)) :
    (collect calls).Built ∧ (collect calls).clauses.toList = acceptedOf calls := by
  induction calls using List.reverseRecOn with
  | nil =>
      exact ⟨.empty, rfl⟩
  | append_singleton before halves ih =>
      rw [collect_snoc, acceptedOf_snoc]
      by_cases hzero : halves.1 = 0 ∨ halves.2 = 0
      · rw [attempt_of_zero _ hzero, admissible_cons_of_zero hzero]
        show _ ∧ _ = acceptedOf before ++ []
        rw [List.append_nil]
        exact ih
      · have hne : halves.1 ≠ 0 ∧ halves.2 ≠ 0 := not_or.1 hzero
        rcases attempt_of_ne_zero (collect before) hne with ⟨hins, hinsert⟩
        refine ⟨ih.1.insert hins, ?_⟩
        rw [hinsert, clauses_insert, Array.toList_push, ih.2, admissible_cons_of_ne_zero hne]
        rfl

end Formula

/-! ## The order of the literals -/

/-- The literals that a clause brings up, in order. -/
def Clause.lits (c : Clause) : List Lit :=
  [c.left, c.left.neg, c.right, c.right.neg]

theorem Clause.mem_lits {c : Clause} {l : Lit} : l ∈ c.lits ↔ c.Mentions l.var := by
  simp only [lits, List.mem_cons, List.not_mem_nil, or_false, Mentions]
  constructor
  · rintro (rfl | rfl | rfl | rfl)
    · exact Or.inl rfl
    · exact Or.inl rfl
    · exact Or.inr rfl
    · exact Or.inr rfl
  · rintro (h | h)
    · rcases Lit.eq_or_eq_neg h with rfl | rfl <;> simp
    · rcases Lit.eq_or_eq_neg h with rfl | rfl <;> simp

theorem eraseDups_snoc (met : List Lit) (l : Lit) :
    (met ++ [l]).eraseDups = if l ∈ met then met.eraseDups else met.eraseDups ++ [l] := by
  rw [List.eraseDups_append]
  by_cases hl : l ∈ met
  · simp [List.removeAll, hl]
  · simp [List.removeAll, hl, List.eraseDups_cons]

namespace Formula

/-- Finding or making a vertex puts its literal behind those met before, unless it is one of them. -/
theorem lits_vertex {f : Formula} (hf : f.Indexed) {met : List Lit}
    (h : f.numbering.lits.toList = met.eraseDups) (l : Lit) :
    (f.vertex l).2.numbering.lits.toList = (met ++ [l]).eraseDups := by
  have hmem : l ∈ met ↔ f.contains l = true := by
    rw [← hf.mem_iff, Array.mem_def, h, List.mem_eraseDups]
  rw [eraseDups_snoc]
  cases hid : f.numbering.id? l with
  | some id =>
      have hl : l ∈ met := hmem.2 (by simp [contains, hid])
      rw [vertex_of_some hid, if_pos hl]
      exact h
  | none =>
      have hl : l ∉ met := by
        intro hin
        have hcontains := hmem.1 hin
        simp [contains, hid] at hcontains
      rw [vertex_of_none hid, if_neg hl, ← h]
      exact Array.toList_push

theorem lits_insert {f : Formula} (hf : f.Indexed) {met : List Lit}
    (h : f.numbering.lits.toList = met.eraseDups) (c : Clause) :
    (f.insert c).numbering.lits.toList = (met ++ c.lits).eraseDups := by
  have h₁ := (grows_vertex f c.left).indexed hf
  have h₂ := (grows_vertex _ c.left.neg).indexed h₁
  have h₃ := (grows_vertex _ c.right).indexed h₂
  have hlits := lits_vertex h₃ (lits_vertex h₂ (lits_vertex h₁ (lits_vertex hf h c.left) c.left.neg)
    c.right) c.right.neg
  rw [numbering_insert, withVertices]
  simpa [Clause.lits] using hlits

theorem implications_vertex (f : Formula) (l : Lit) :
    (f.vertex l).2.implications = f.implications := by
  cases hid : f.numbering.id? l with
  | some id =>
      rw [vertex_of_some hid]
  | none =>
      rw [vertex_of_none hid]

theorem implications_insert (f : Formula) (c : Clause) :
    (f.insert c).implications = f.implications + 2 := by
  have hvertices : (f.withVertices c).implications = f.implications := by
    simp only [withVertices, implications_vertex]
  have hrecord : ∀ (g : Formula) (u v u' v' : UInt32),
      (((g.link u v).link u' v').record c).implications = g.implications + 2 :=
    fun _ _ _ _ _ => rfl
  rcases insert_eq f c with ⟨a, notA, b, notB, h⟩
  rw [h, hrecord, hvertices]

namespace Built

variable {f : Formula}

theorem lits_eq (hf : f.Built) :
    f.numbering.lits.toList = (f.clauses.toList.flatMap Clause.lits).eraseDups := by
  induction hf with
  | empty =>
      rfl
  | insert hbuilt hins ih =>
      rcases insertSigned_eq_ok.1 hins with ⟨_, rfl⟩
      rw [lits_insert hbuilt.indexed ih, clauses_insert, Array.toList_push, List.flatMap_append,
        List.flatMap_singleton]

theorem implications_eq (hf : f.Built) : f.implications = 2 * f.clauses.size := by
  induction hf with
  | empty =>
      rfl
  | insert _ hins ih =>
      rcases insertSigned_eq_ok.1 hins with ⟨_, rfl⟩
      rw [implications_insert, clauses_insert, Array.size_push, ih, Nat.mul_succ]

end Built

/-! ## All that is stored -/

/-- What is stored for some clauses. Literals are listed in the order in which the clauses first bring
them up, each once, and a literal has the number of its place. There is a row for each, in which
successors are listed once and have numbers. The literals are those of the clauses and their negations.
The clauses are stored in order, and the counters say how many literals, implications and clauses there
are and which variable is the largest. -/
structure Exact (f : Formula) (cs : List Clause) : Prop where
  lits_eq : f.numbering.lits.toList = (cs.flatMap Clause.lits).eraseDups
  lits_nodup : f.numbering.lits.toList.Nodup
  number_of_place : ∀ (k : Nat) (l : Lit), f.numbering.lits[k]? = some l →
    ∃ id, f.numbering.id? l = some id ∧ id.toNat = k
  place_of_number : ∀ l id, f.numbering.id? l = some id → f.numbering.lits[id.toNat]? = some l
  rows_size : f.rows.size = f.numbering.lits.size
  successors : ∀ row ∈ f.rows,
    row.ids.toList.Nodup ∧ ∀ id ∈ row.ids, id.toNat < f.numbering.lits.size
  neg_mem : ∀ l ∈ f.numbering.lits, l.neg ∈ f.numbering.lits
  mem_iff : ∀ l, l ∈ f.numbering.lits ↔
    ∃ c ∈ cs, l = c.left ∨ l = c.left.neg ∨ l = c.right ∨ l = c.right.neg
  clauses_eq : f.clauses.toList = cs
  count_literals : f.counts.literals = 2 * (cs.flatMap Clause.vars).toFinset.card
  count_implications : f.counts.implications = 2 * f.counts.clauses
  count_clauses : f.counts.clauses = cs.length
  le_maxVar : ∀ x ∈ cs.flatMap Clause.vars, x ≤ f.counts.maxVar
  maxVar_cases : f.counts.maxVar ∈ cs.flatMap Clause.vars ∨ cs = [] ∧ f.counts.maxVar = 0

variable {f : Formula}

/-- The links of a row lead to numbers of literals. -/
theorem Coherent.successor_lt (hf : f.Coherent) (hsize : f.numbering.size < UInt32.size) {row : Row}
    (hrow : row ∈ f.rows) {id : UInt32} (hid : id ∈ row.ids) : id.toNat < f.numbering.size := by
  rcases Array.mem_iff_getElem?.1 hrow with ⟨k, hk⟩
  have hlt : k < UInt32.size := by
    have hk' := (Array.getElem?_eq_some_iff.1 hk).1
    rw [hf.indexed.rows_size] at hk'
    exact Nat.lt_trans hk' hsize
  have hlinks : f.Links (UInt32.ofNat k) id := by
    refine ⟨row, ?_, hid⟩
    rw [UInt32.toNat_ofNat_of_lt' hlt]
    exact hk
  rcases (hf.links_iff _ _).1 hlinks with ⟨_, _, _, m, _, _, hm⟩
  exact Numbering.toNat_lt_of_lit? ((hf.faithful m id).1 hm)

theorem Coherent.number_of_place (hf : f.Coherent) (hsize : f.numbering.size < UInt32.size) {k : Nat}
    {l : Lit} (h : f.numbering.lits[k]? = some l) : ∃ id, f.numbering.id? l = some id ∧ id.toNat = k := by
  have hlt : k < UInt32.size := Nat.lt_trans (Array.getElem?_eq_some_iff.1 h).1 hsize
  have hexact : (UInt32.ofNat k).toNat = k := UInt32.toNat_ofNat_of_lt' hlt
  refine ⟨UInt32.ofNat k, (hf.faithful _ _).2 ?_, hexact⟩
  rw [Numbering.lit?, hexact]
  exact h

/-- A formula with fewer literals than there are numbers stores what it should for its clauses. -/
theorem Built.exact (hf : f.Built) (hsize : f.numbering.size < UInt32.size) :
    f.Exact f.clauses.toList := by
  have hcoherent := hf.coherent hsize
  have hmem : ∀ l, l ∈ f.numbering.lits ↔ ∃ c ∈ f.clauses, c.Mentions l.var := by
    intro l
    rw [hf.indexed.mem_iff, hf.contains_iff]
  have hvars : ∀ x, x ∈ f.clauses.toList.flatMap Clause.vars ↔ ∃ c ∈ f.clauses, c.Mentions x := by
    intro x
    rw [← List.mem_toFinset, mem_varsOfClauses]
  exact
    { lits_eq := hf.lits_eq
      lits_nodup := hf.indexed.nodup
      number_of_place := fun _ _ h => hcoherent.number_of_place hsize h
      place_of_number := fun l id h => (hcoherent.faithful l id).1 h
      rows_size := hf.indexed.rows_size
      successors := fun row hrow =>
        ⟨hcoherent.rows_nodup row hrow, fun _ hid => hcoherent.successor_lt hsize hrow hid⟩
      neg_mem := by
        intro l hl
        rw [hmem] at hl ⊢
        exact hl
      mem_iff := by
        intro l
        rw [hmem]
        simp only [← Clause.mem_lits, Clause.lits, List.mem_cons, List.not_mem_nil, or_false,
          Array.mem_def]
      clauses_eq := rfl
      count_literals := hf.size_eq (mem_varsOfClauses f)
      count_implications := hf.implications_eq
      count_clauses := Array.length_toList.symm
      le_maxVar := by
        intro x hx
        rcases (hvars x).1 hx with ⟨c, hc, hmentions⟩
        exact hf.le_maxVar c hc x hmentions
      maxVar_cases := by
        rcases hf.maxVar_cases with ⟨hnone, hzero⟩ | hsome
        · exact Or.inr ⟨by rw [hnone], hzero⟩
        · exact Or.inl ((hvars _).2 hsome) }

end Formula

/-- After any calls, accepted or refused, that lead to fewer literals than there are numbers, all that is
stored is exact for the accepted clauses. -/
theorem collect_exact (calls : List (Int32 × Int32))
    (hsize : (Formula.collect calls).counts.literals < UInt32.size) :
    (Formula.collect calls).Exact (acceptedOf calls) := by
  rcases Formula.built_collect calls with ⟨hbuilt, hclauses⟩
  rw [← hclauses]
  exact hbuilt.exact hsize

/-- Clauses whose halves share a variable, a repeated clause and two refused ones. -/
theorem collect_exact_overlapping :
    (Formula.collect [(1, -1), (0, 3), (2, 2), (-2147483648, 1), (2, 2), (5, 0)]).counts.literals <
      UInt32.size ∧
    (Formula.collect [(1, -1), (0, 3), (2, 2), (-2147483648, 1), (2, 2), (5, 0)]).Exact
      [⟨⟨1, true⟩, ⟨1, false⟩⟩, ⟨⟨2, true⟩, ⟨2, true⟩⟩, ⟨⟨2147483648, false⟩, ⟨1, true⟩⟩,
        ⟨⟨2, true⟩, ⟨2, true⟩⟩] := by
  have hsize : (Formula.collect [(1, -1), (0, 3), (2, 2), (-2147483648, 1), (2, 2),
      (5, 0)]).counts.literals < UInt32.size := by
    decide +kernel
  exact ⟨hsize, collect_exact _ hsize⟩

end TwoCnf
