import Mathlib.Data.Finset.Prod
import Mathlib.Data.Fintype.Card
import TwoCnf.Proofs.Formula.Coherence

/-!
# Coverage — the variables of a formula

* `Clause.ofHalves` — the clause that two signed halves stand for, if neither is zero
  (`Clause.ofSigned_eq_ok`), and `admissible` — the pairs of a list that stand for one;
* `Formula.Built.ne_zero`, `Formula.Built.le_maxVar`, `Formula.Built.maxVar_cases` — variables are not
  zero, and `maxVar` is the largest of them;
* `Formula.Built.contains_iff`, `Formula.Built.size_eq` — the literals with a vertex are those of the
  variables, so there are two for each.

None of this depends on how many variables there are.
-/

namespace TwoCnf

/-! ## Signed halves -/

theorem toNat_magnitude (x : Int32) : (magnitude x).toNat = x.toInt.natAbs := by
  -- `-2147483648` has the largest magnitude, which is still a number
  have hlow : -2147483648 ≤ x.toInt := Int32.le_toInt x
  have hhigh : x.toInt < 2147483648 := Int32.toInt_lt x
  unfold magnitude
  apply UInt32.toNat_ofNat_of_lt'
  have hsize : UInt32.size = 4294967296 := rfl
  omega

theorem magnitude_ne_zero {x : Int32} (h : x ≠ 0) : magnitude x ≠ 0 := by
  intro hzero
  apply h
  have habs : x.toInt.natAbs = 0 := by
    rw [← toNat_magnitude, hzero]
    rfl
  apply Int32.toInt_inj.1
  rw [Int.natAbs_eq_zero.1 habs]
  rfl

namespace Clause

/-- The disjunction of two signed halves. -/
def ofHalves (halves : Int32 × Int32) : Clause :=
  ⟨⟨magnitude halves.1, decide (0 < halves.1)⟩, ⟨magnitude halves.2, decide (0 < halves.2)⟩⟩

theorem ofSigned_eq_ok {a b : Int32} {c : Clause} :
    ofSigned a b = .ok c ↔ (a ≠ 0 ∧ b ≠ 0) ∧ c = ofHalves (a, b) := by
  unfold ofSigned Lit.ofSigned? ofHalves
  by_cases ha : a = 0
  · simp [ha]
  · by_cases hb : b = 0
    · simp [hb]
    · simp only [ha, hb, if_false, Except.ok.injEq, ne_eq, not_false_eq_true, and_self, true_and]
      exact eq_comm

theorem ofSigned_eq_error {a b : Int32} {e : ZeroHalf} :
    ofSigned a b = .error e ↔ (a = 0 ∨ b = 0) ∧ e = ⟨a, b⟩ := by
  unfold ofSigned Lit.ofSigned?
  by_cases ha : a = 0
  · simp [ha, eq_comm]
  · by_cases hb : b = 0
    · simp [hb, eq_comm]
    · simp [ha, hb]

/-- The variables of the two literals. -/
def vars (c : Clause) : List UInt32 :=
  [c.left.var, c.right.var]

theorem mem_vars {c : Clause} {x : UInt32} : x ∈ c.vars ↔ c.Mentions x := by
  simp [vars, Mentions]

theorem Mentions.ne_zero {a b : Int32} {c : Clause} {x : UInt32} (hc : ofSigned a b = .ok c)
    (hx : c.Mentions x) : x ≠ 0 := by
  rcases ofSigned_eq_ok.1 hc with ⟨⟨ha, hb⟩, rfl⟩
  rcases hx with rfl | rfl
  · exact magnitude_ne_zero ha
  · exact magnitude_ne_zero hb

end Clause

/-- The pairs without a zero half, in order. -/
def admissible (pairs : List (Int32 × Int32)) : List (Int32 × Int32) :=
  pairs.filter fun halves => halves.1 ≠ 0 ∧ halves.2 ≠ 0

theorem ne_zero_of_mem_admissible {pairs : List (Int32 × Int32)} :
    ∀ halves ∈ admissible pairs, halves.1 ≠ 0 ∧ halves.2 ≠ 0 := by
  intro halves hmem
  simpa using (List.mem_filter.1 hmem).2

theorem admissible_eq_self {pairs : List (Int32 × Int32)}
    (h : ∀ halves ∈ pairs, halves.1 ≠ 0 ∧ halves.2 ≠ 0) : admissible pairs = pairs :=
  List.filter_eq_self.2 fun halves hmem => decide_eq_true (h halves hmem)

theorem admissible_cons_of_ne_zero {halves : Int32 × Int32} (h : halves.1 ≠ 0 ∧ halves.2 ≠ 0)
    (rest : List (Int32 × Int32)) : admissible (halves :: rest) = halves :: admissible rest :=
  List.filter_cons_of_pos (decide_eq_true h)

theorem admissible_cons_of_zero {halves : Int32 × Int32} (h : halves.1 = 0 ∨ halves.2 = 0)
    (rest : List (Int32 × Int32)) : admissible (halves :: rest) = admissible rest := by
  have hnot : ¬ (halves.1 ≠ 0 ∧ halves.2 ≠ 0) := fun hne => not_or.2 hne h
  exact List.filter_cons_of_neg (by simpa using hnot)

/-! ## Variables of a formula -/

theorem le_max_max {x y z : UInt32} :
    x ≤ max (max x y) z ∧ y ≤ max (max x y) z ∧ z ≤ max (max x y) z := by
  have hmax : ∀ a b : UInt32, max a b = if a ≤ b then b else a := fun _ _ => rfl
  rw [hmax, hmax]
  simp only [UInt32.le_iff_toNat_le]
  split <;> split <;> omega

theorem max_max_cases (x y z : UInt32) :
    max (max x y) z = x ∨ max (max x y) z = y ∨ max (max x y) z = z := by
  have hmax : ∀ a b : UInt32, max a b = if a ≤ b then b else a := fun _ _ => rfl
  rw [hmax, hmax]
  split <;> split <;> simp

theorem Formula.mem_varsOfClauses (f : Formula) (x : UInt32) :
    x ∈ (f.clauses.toList.flatMap Clause.vars).toFinset ↔ ∃ c ∈ f.clauses, c.Mentions x := by
  rw [List.mem_toFinset, List.mem_flatMap]
  simp only [Array.mem_def, Clause.mem_vars]

namespace Formula.Built

variable {f : Formula}

theorem ne_zero (hf : f.Built) : ∀ c ∈ f.clauses, ∀ x, c.Mentions x → x ≠ 0 := by
  induction hf with
  | empty =>
      intro c hc
      simp [Formula.empty] at hc
  | insert _ hins ih =>
      rcases insertSigned_eq_ok.1 hins with ⟨hsigned, rfl⟩
      intro c hc x hx
      rw [clauses_insert] at hc
      rcases Array.mem_push.1 hc with hold | rfl
      · exact ih c hold x hx
      · exact hx.ne_zero hsigned

theorem le_maxVar (hf : f.Built) : ∀ c ∈ f.clauses, ∀ x, c.Mentions x → x ≤ f.maxVar := by
  induction hf with
  | empty =>
      intro c hc
      simp [Formula.empty] at hc
  | insert _ hins ih =>
      rcases insertSigned_eq_ok.1 hins with ⟨_, rfl⟩
      intro c hc x hx
      rw [clauses_insert] at hc
      rw [maxVar_insert]
      rcases Array.mem_push.1 hc with hold | rfl
      · exact UInt32.le_trans (ih c hold x hx) le_max_max.1
      · rcases hx with rfl | rfl
        · exact le_max_max.2.1
        · exact le_max_max.2.2

/-- The largest variable is one of them, unless there is none. -/
theorem maxVar_cases (hf : f.Built) :
    (f.clauses = #[] ∧ f.maxVar = 0) ∨ ∃ c ∈ f.clauses, c.Mentions f.maxVar := by
  induction hf with
  | empty =>
      exact Or.inl ⟨rfl, rfl⟩
  | @insert f _ _ _ c _ hins ih =>
      rcases insertSigned_eq_ok.1 hins with ⟨hsigned, rfl⟩
      refine Or.inr ?_
      rw [clauses_insert, maxVar_insert]
      rcases max_max_cases f.maxVar c.left.var c.right.var with h | h | h
      · rw [h]
        rcases ih with ⟨_, hzero⟩ | ⟨d, hd, hmentions⟩
        · -- a variable of the clause is not above zero only if it is zero
          have hle : c.left.var ≤ 0 := by
            rw [← hzero]
            have hmax := (le_max_max (x := f.maxVar) (y := c.left.var) (z := c.right.var)).2.1
            rwa [h] at hmax
          have hleft : c.left.var = 0 := by
            apply UInt32.toNat_inj.1
            rw [UInt32.le_iff_toNat_le] at hle
            exact Nat.le_zero.1 hle
          exact absurd hleft (Clause.Mentions.ne_zero hsigned (Or.inl rfl))
        · exact ⟨d, Array.mem_push.2 (Or.inl hd), hmentions⟩
      · rw [h]
        exact ⟨c, Array.mem_push.2 (Or.inr rfl), Or.inl rfl⟩
      · rw [h]
        exact ⟨c, Array.mem_push.2 (Or.inr rfl), Or.inr rfl⟩

theorem contains_iff (hf : f.Built) :
    ∀ l, f.contains l = true ↔ ∃ c ∈ f.clauses, c.Mentions l.var := by
  induction hf with
  | empty =>
      exact coherent_empty.contains_iff
  | insert _ hins ih =>
      rcases insertSigned_eq_ok.1 hins with ⟨_, rfl⟩
      exact contains_iff_insert ih _

/-- There are two literals for each variable. -/
theorem size_eq (hf : f.Built) {vars : Finset UInt32}
    (hvars : ∀ x, x ∈ vars ↔ ∃ c ∈ f.clauses, c.Mentions x) :
    f.numbering.size = 2 * vars.card := by
  have hmem : ∀ l, l ∈ f.numbering.lits.toList.toFinset ↔ l.var ∈ vars := by
    intro l
    rw [List.mem_toFinset, ← Array.mem_def, hf.indexed.mem_iff, hf.contains_iff, hvars]
  -- a literal is its variable and its sign
  have hpairs : f.numbering.lits.toList.toFinset.card =
      (vars ×ˢ (Finset.univ : Finset Bool)).card := by
    refine Finset.card_nbij' (fun l => (l.var, l.sign)) (fun pair => ⟨pair.1, pair.2⟩) ?_ ?_ ?_ ?_
    · intro l hl
      exact Finset.mem_product.2 ⟨(hmem l).1 hl, Finset.mem_univ _⟩
    · intro pair hpair
      exact (hmem _).2 (Finset.mem_product.1 hpair).1
    · intro l _
      rfl
    · intro pair _
      rfl
  calc
    f.numbering.size
        = f.numbering.lits.toList.length := Array.length_toList.symm
    _ = f.numbering.lits.toList.toFinset.card :=
          (List.toFinset_card_of_nodup hf.indexed.nodup).symm
    _ = (vars ×ˢ (Finset.univ : Finset Bool)).card := hpairs
    _ = 2 * vars.card := by
          rw [Finset.card_product, Finset.card_univ, Fintype.card_bool, Nat.mul_comm]

/-- There are at most two literals for each of some variables that include those of the clauses. -/
theorem size_le (hf : f.Built) {vars : Finset UInt32}
    (hvars : ∀ c ∈ f.clauses, ∀ x, c.Mentions x → x ∈ vars) : f.numbering.size ≤ 2 * vars.card := by
  rw [hf.size_eq (mem_varsOfClauses f)]
  apply Nat.mul_le_mul_left
  apply Finset.card_le_card
  intro x hx
  rcases (mem_varsOfClauses f x).1 hx with ⟨c, hc, hmentions⟩
  exact hvars c hc x hmentions

end Formula.Built
end TwoCnf
