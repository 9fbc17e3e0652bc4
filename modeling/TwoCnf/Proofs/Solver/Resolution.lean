import TwoCnf.Proofs.Component.Duality
import TwoCnf.Proofs.Formula.Coverage
import TwoCnf.Solver.Basic

/-!
# Resolution — conflicts, and the model that the components give

* `Partition.Tidy.conflict?_eq_none_iff` — a conflict is a literal that shares its component with its
  negation;
* `Partition.Settles` — what is stored after a number of components: a literal is true exactly if its
  component has been looked at and stands before that of its negation;
* `Partition.Settles.step`, `Partition.settles_take` — one component, and all of them;
* `Formula.check_resolve` — without a conflict, the model makes every clause true;
* `Formula.eval?_resolve` — the value of a literal in the model depends only on which of its component and
  that of its negation comes first;
* `Formula.not_satisfiable_of_shared` — with one, no valuation does.
-/

namespace TwoCnf
namespace Partition

/-! ## Conflicts -/

/-- No literal shares its component with its negation. -/
def Free (p : Partition) : Prop :=
  ∀ l i, p.componentOf? l = some i → p.componentOf? l.neg ≠ some i

namespace Tidy

variable {p : Partition}

theorem conflict?_eq_none_iff (hp : p.Tidy) : p.conflict? = none ↔ p.Free := by
  unfold conflict? Free
  simp only [List.findSome?_eq_none_iff, Option.map_eq_none_iff, List.find?_eq_none, Prod.forall,
    List.mem_zipIdx_iff_getElem?, Array.getElem?_toList, beq_iff_eq]
  constructor
  · intro h l i hi
    rcases (hp.componentOf?_iff l i).1 hi with ⟨lits, hlits, hl⟩
    exact h lits i hlits l hl
  · intro h lits i hlits l hl
    exact h l i ((hp.componentOf?_iff l i).2 ⟨lits, hlits, hl⟩)

end Tidy

/-! ## Making a component true -/

/-- Storing literals none of which has its negation among them makes them true and keeps the rest. -/
theorem getElem?_foldl_sign (lits : List Lit) (stored : Std.TreeMap UInt32 Bool)
    (hfree : ∀ l ∈ lits, l.neg ∉ lits) (l : Lit) :
    (lits.foldl (fun stored l => stored.insert l.var l.sign) stored)[l.var]? = some l.sign ↔
      l ∈ lits ∨ (l.neg ∉ lits ∧ stored[l.var]? = some l.sign) := by
  induction lits generalizing stored with
  | nil =>
      simp
  | cons m lits ih =>
      have hrest : ∀ k ∈ lits, k.neg ∉ lits := by
        intro k hk hneg
        exact hfree k (List.mem_cons_of_mem m hk) (List.mem_cons_of_mem m hneg)
      rw [List.foldl_cons, ih (stored.insert m.var m.sign) hrest, getElem?_insert_eq]
      by_cases hvar : l.var = m.var
      · rw [if_pos hvar]
        rcases Lit.eq_or_eq_neg hvar with rfl | rfl
        · -- the new literal itself: its negation does not follow
          have hnot : l.neg ∉ lits := by
            intro hneg
            exact hfree l List.mem_cons_self (List.mem_cons_of_mem l hneg)
          simp [hnot]
        · -- its negation: false from now on
          have hnot : m.neg ∉ lits := by
            intro hneg
            exact hfree m List.mem_cons_self (List.mem_cons_of_mem m hneg)
          simp [hnot, Lit.neg_ne]
      · rw [if_neg hvar]
        have hne : l ≠ m := by
          rintro rfl
          exact hvar rfl
        have hne' : l.neg ≠ m := by
          rintro rfl
          exact hvar rfl
        simp [hne, hne']

/-- The variables with a value are those stored before and those of the literals. -/
theorem contains_foldl_sign (lits : List Lit) (stored : Std.TreeMap UInt32 Bool) (x : UInt32) :
    (lits.foldl (fun stored l => stored.insert l.var l.sign) stored).contains x = true ↔
      stored.contains x = true ∨ x ∈ lits.map Lit.var := by
  induction lits generalizing stored with
  | nil =>
      simp
  | cons l lits ih =>
      rw [List.foldl_cons, ih, Std.TreeMap.contains_insert, Bool.or_eq_true, beq_iff_eq,
        Std.compare_eq_iff_eq, List.map_cons, List.mem_cons]
      tauto

/-! ## The walk over the components -/

/-- After the first `k` components, a literal is stored as true exactly if its component is among them
and stands before that of its negation. -/
def Settles (p : Partition) (k : Nat) (stored : Std.TreeMap UInt32 Bool) : Prop :=
  ∀ l : Lit, stored[l.var]? = some l.sign ↔
    ∃ i j, p.componentOf? l = some i ∧ p.componentOf? l.neg = some j ∧ i < k ∧ i < j

variable {p : Partition} {f : Formula}

theorem Represents.exists_neg (hp : p.Represents f) (hf : f.Coherent) {l : Lit} {i : Nat}
    (hi : p.componentOf? l = some i) : ∃ j, p.componentOf? l.neg = some j := by
  rw [hp.exists_number_iff, hf.contains_neg, ← hp.exists_number_iff]
  exact ⟨i, hi⟩

theorem contains_iff_of_var {stored : Std.TreeMap UInt32 Bool} (l : Lit) :
    stored.contains l.var = true ↔
      stored[l.var]? = some l.sign ∨ stored[l.neg.var]? = some l.neg.sign := by
  rw [Std.TreeMap.contains_eq_isSome_getElem?, Lit.neg_var, Lit.neg_sign]
  cases h : stored[l.var]? with
  | none =>
      simp
  | some b =>
      cases b <;> cases l.sign <;> simp

/-- A component whose negations came first adds nothing. -/
theorem Settles.skip {k j : Nat} {stored : Std.TreeMap UInt32 Bool} (h : p.Settles k stored)
    (hneg : ∀ l, p.componentOf? l = some k → p.componentOf? l.neg = some j) (hjk : j < k) :
    p.Settles (k + 1) stored := by
  intro l
  rw [h l]
  constructor
  · rintro ⟨i, i', hi, hi', hik, hii'⟩
    exact ⟨i, i', hi, hi', Nat.lt_succ_of_lt hik, hii'⟩
  · rintro ⟨i, i', hi, hi', hik, hii'⟩
    refine ⟨i, i', hi, hi', ?_, hii'⟩
    rcases Nat.lt_succ_iff_lt_or_eq.1 hik with hik | rfl
    · exact hik
    · -- a literal of this component comes after its negation
      rw [hneg l hi] at hi'
      cases hi'
      exact absurd hjk (Nat.lt_asymm hii')

/-- A component whose negations are still to come is made true. -/
theorem Settles.make {k j : Nat} {stored : Std.TreeMap UInt32 Bool} {lits : List Lit}
    (h : p.Settles k stored) (hmem : ∀ l, l ∈ lits ↔ p.componentOf? l = some k)
    (hneg : ∀ l, p.componentOf? l = some k → p.componentOf? l.neg = some j) (hkj : k < j) :
    p.Settles (k + 1) (lits.foldl (fun stored l => stored.insert l.var l.sign) stored) := by
  have hsep : ∀ l ∈ lits, l.neg ∉ lits := by
    intro l hl hl'
    have hj := hneg l ((hmem l).1 hl)
    rw [(hmem l.neg).1 hl'] at hj
    exact absurd (Option.some.inj hj) (Nat.ne_of_lt hkj)
  intro l
  rw [getElem?_foldl_sign _ _ hsep, hmem, hmem, h l]
  constructor
  · rintro (hl | ⟨_, i, i', hi, hi', hik, hii'⟩)
    · exact ⟨k, j, hl, hneg l hl, Nat.lt_succ_self k, hkj⟩
    · exact ⟨i, i', hi, hi', Nat.lt_succ_of_lt hik, hii'⟩
  · rintro ⟨i, i', hi, hi', hik, hii'⟩
    rcases Nat.lt_succ_iff_lt_or_eq.1 hik with hik | rfl
    · refine Or.inr ⟨?_, i, i', hi, hi', hik, hii'⟩
      intro hl
      -- the literal would be the negation of one of this component, and so come after it
      have hback := hneg l.neg hl
      rw [Lit.neg_neg, hi] at hback
      cases hback
      exact absurd hik (Nat.lt_asymm hkj)
    · exact Or.inl hi

/-- The next component is made true if the component of the negations is still to come, and left alone
if that one came first. Its first literal tells which. -/
theorem Settles.step {k : Nat} {stored : Std.TreeMap UInt32 Bool} {lits : List Lit}
    (h : p.Settles k stored) (hp : p.Represents f) (hf : f.Coherent) (hfree : p.Free)
    (hlits : p.components[k]? = some lits) : p.Settles (k + 1) (assign stored lits) := by
  have hmem : ∀ l, l ∈ lits ↔ p.componentOf? l = some k := by
    intro l
    rw [hp.tidy.componentOf?_iff, hlits]
    simp
  cases lits with
  | nil =>
      exact absurd rfl (hp.tidy.ne_nil [] (Array.mem_of_getElem? hlits))
  | cons first rest =>
      have hfirst : p.componentOf? first = some k := (hmem first).1 List.mem_cons_self
      rcases hp.exists_neg hf hfirst with ⟨j, hj⟩
      -- the negations of the component are one component as well, number `j`
      have hneg : ∀ l, p.componentOf? l = some k → p.componentOf? l.neg = some j := by
        intro l hl
        rw [hp.neg_eq l first k hl hfirst]
        exact hj
      -- so one look at the first literal tells for all of them whether the negations came first
      have hstored : stored.contains first.var = true ↔ j < k := by
        rw [contains_iff_of_var, h first, h first.neg, Lit.neg_neg, hfirst, hj]
        simp
      simp only [assign]
      by_cases hjk : j < k
      · rw [if_pos (hstored.2 hjk)]
        exact h.skip hneg hjk
      · have hkj : k < j := by
          apply Nat.lt_of_le_of_ne (Nat.le_of_not_lt hjk)
          rintro rfl
          exact hfree first k hfirst hj
        rw [if_neg fun hc => hjk (hstored.1 hc)]
        exact h.make hmem hneg hkj

theorem settles_take (hp : p.Represents f) (hf : f.Coherent) (hfree : p.Free) (n : Nat)
    (hn : n ≤ p.size) : p.Settles n ((p.components.toList.take n).foldl assign ∅) := by
  induction n with
  | zero =>
      intro l
      simp
  | succ n ih =>
      have hlt : n < p.components.toList.length := by
        rw [Array.length_toList]
        exact hn
      -- the components so far and one more
      rw [List.take_succ_eq_append_getElem hlt, List.foldl_append]
      refine (ih (Nat.le_of_succ_le hn)).step hp hf hfree ?_
      rw [← Array.getElem?_toList]
      exact List.getElem?_eq_getElem hlt

/-- In the model that the components give, the literals that come before their negations are true. -/
theorem stored_resolve (hp : p.Represents f) (hf : f.Coherent) (hfree : p.Free) (n : UInt32)
    (l : Lit) : (p.resolve n).stored[l.var]? = some l.sign ↔
      ∃ i j, p.componentOf? l = some i ∧ p.componentOf? l.neg = some j ∧ i < j := by
  have hall := settles_take hp hf hfree p.size (Nat.le_refl _) l
  have htake : p.components.toList.take p.size = p.components.toList :=
    List.take_of_length_le (Nat.le_of_eq Array.length_toList)
  rw [htake, Array.foldl_toList] at hall
  refine hall.trans ?_
  constructor
  · rintro ⟨i, j, hi, hj, _, hij⟩
    exact ⟨i, j, hi, hj, hij⟩
  · rintro ⟨i, j, hi, hj, hij⟩
    exact ⟨i, j, hi, hj, hp.tidy.lt_size hi, hij⟩

end Partition

/-! ## The model makes every clause true -/

theorem Model.value?_eq_read {m : Model} {x : UInt32} (hx : x ≠ 0) (hle : x ≤ m.numVars) :
    m.value? x = some (m.read x) := by
  unfold Model.value?
  have hnot : ¬ (x = 0 ∨ m.numVars < x) := by
    rintro (h | h)
    · exact hx h
    · exact UInt32.not_lt.2 hle h
  rw [if_neg hnot]

theorem Lit.eval?_eq_isTrueIn {m : Model} {l : Lit} (hx : l.var ≠ 0) (hle : l.var ≤ m.numVars) :
    l.eval? m = some (l.isTrueIn m.read) := by
  unfold Lit.eval?
  rw [Model.value?_eq_read hx hle]
  rfl

/-- Where a valuation gives the literals of a clause their values, it gives the clause its value. -/
theorem Clause.holds_eq_isTrueIn {c : Clause} {m : Model} {v : Valuation}
    (hleft : c.left.eval? m = some (c.left.isTrueIn v))
    (hright : c.right.eval? m = some (c.right.isTrueIn v)) : c.holds m = c.isTrueIn v := by
  unfold Clause.holds Clause.isTrueIn
  rw [hleft, hright]
  simp

theorem Lit.eval?_of_stored {m : Model} {l : Lit} (hx : l.var ≠ 0) (hle : l.var ≤ m.numVars)
    (h : m.stored[l.var]? = some l.sign) : l.eval? m = some true := by
  unfold Lit.eval?
  rw [Model.value?_eq_read hx hle, Model.read, Std.TreeMap.get?_eq_getElem?, h]
  cases l.sign <;> rfl

theorem Lit.eval?_neg (l : Lit) (m : Model) : l.neg.eval? m = (l.eval? m).map (!·) := by
  unfold Lit.eval?
  rw [Lit.neg_var, Lit.neg_sign, Option.map_map]
  congr 1
  funext v
  cases l.sign <;> simp

/-- A true literal is true in the valuation that the model stores. -/
theorem Lit.isTrueIn_read {m : Model} {l : Lit} (h : l.eval? m = some true) :
    l.isTrueIn m.read = true := by
  unfold Lit.eval? Model.value? at h
  by_cases hout : l.var = 0 ∨ m.numVars < l.var
  · rw [if_pos hout] at h
    cases h
  · rw [if_neg hout] at h
    exact Option.some.inj h

namespace Formula

variable {f : Formula} {p : Partition}

/-- Of the two literals of a clause, one comes before its negation. If neither did, the numbers would
strictly fall from the left literal to its negation, the right literal, its negation, and back. -/
theorem exists_before_neg (hf : f.Coherent) (hp : p.Represents f) (hfree : p.Free) {c : Clause}
    (hc : c ∈ f.clauses) : ∃ l i j, (l = c.left ∨ l = c.right) ∧
      p.componentOf? l = some i ∧ p.componentOf? l.neg = some j ∧ i < j := by
  have hcontains : ∀ l : Lit, c.Mentions l.var → ∃ i, p.componentOf? l = some i := by
    intro l hl
    exact (hp.exists_number_iff l).2 ((hf.contains_iff l).2 ⟨c, hc, hl⟩)
  rcases hcontains c.left (Or.inl rfl) with ⟨a, ha⟩
  rcases hcontains c.left.neg (Or.inl rfl) with ⟨notA, hnotA⟩
  rcases hcontains c.right (Or.inr rfl) with ⟨b, hb⟩
  rcases hcontains c.right.neg (Or.inr rfl) with ⟨notB, hnotB⟩
  -- the two implications of the clause
  have hright : b ≤ notA := hp.le_of_implies c hc _ _ _ _ (Or.inl ⟨rfl, rfl⟩) hnotA hb
  have hleft : a ≤ notB := hp.le_of_implies c hc _ _ _ _ (Or.inr ⟨rfl, rfl⟩) hnotB ha
  by_cases hlt : a < notA
  · exact ⟨c.left, a, notA, Or.inl rfl, ha, hnotA, hlt⟩
  · have hne : a ≠ notA := by
      rintro rfl
      exact hfree c.left a ha hnotA
    have hlt' : b < notB := by
      calc
        b ≤ notA := hright
        _ < a := Nat.lt_of_le_of_ne (Nat.le_of_not_lt hlt) hne.symm
        _ ≤ notB := hleft
    exact ⟨c.right, b, notB, Or.inr rfl, hb, hnotB, hlt'⟩

theorem check_resolve (hf : f.Built) (hcoherent : f.Coherent) (hp : p.Represents f)
    (hfree : p.Free) : f.check (p.resolve f.maxVar) = true := by
  unfold check
  rw [Array.all_eq_true_iff_forall_mem]
  intro c hc
  rcases exists_before_neg hcoherent hp hfree hc with ⟨l, i, j, hl, hi, hj, hij⟩
  have hmentions : c.Mentions l.var := by
    rcases hl with rfl | rfl
    · exact Or.inl rfl
    · exact Or.inr rfl
  have hstored : (p.resolve f.maxVar).stored[l.var]? = some l.sign :=
    (Partition.stored_resolve hp hcoherent hfree f.maxVar l).2 ⟨i, j, hi, hj, hij⟩
  have htrue : l.eval? (p.resolve f.maxVar) = some true :=
    Lit.eval?_of_stored (hf.ne_zero c hc _ hmentions) (hf.le_maxVar c hc _ hmentions) hstored
  unfold Clause.holds
  rcases hl with rfl | rfl
  · simp [htrue]
  · simp [htrue]

/-- A literal has the value true exactly if its component comes before that of its negation. -/
theorem eval?_resolve (hf : f.Built) (hcoherent : f.Coherent) (hp : p.Represents f)
    (hfree : p.Free) {l : Lit} {i j : Nat} (hi : p.componentOf? l = some i)
    (hj : p.componentOf? l.neg = some j) : l.eval? (p.resolve f.maxVar) = some (decide (i < j)) := by
  rcases (hf.contains_iff l).1 ((hp.exists_number_iff l).1 ⟨i, hi⟩) with ⟨c, hc, hmentions⟩
  have hne := hf.ne_zero c hc _ hmentions
  have hle := hf.le_maxVar c hc _ hmentions
  by_cases hij : i < j
  · rw [decide_eq_true hij]
    exact Lit.eval?_of_stored hne hle
      ((Partition.stored_resolve hp hcoherent hfree f.maxVar l).2 ⟨i, j, hi, hj, hij⟩)
  · -- then the negation comes first, so that one has the value true
    have hji : j < i := by
      refine Nat.lt_of_le_of_ne (Nat.le_of_not_lt hij) ?_
      rintro rfl
      exact hfree l j hi hj
    have hnegneg : p.componentOf? l.neg.neg = some i := by
      rw [Lit.neg_neg]
      exact hi
    have hneg : l.neg.eval? (p.resolve f.maxVar) = some true :=
      Lit.eval?_of_stored hne hle
        ((Partition.stored_resolve hp hcoherent hfree f.maxVar l.neg).2 ⟨j, i, hj, hnegneg, hji⟩)
    rw [decide_eq_false hij, ← Lit.neg_neg l, Lit.eval?_neg, hneg]
    rfl

/-! ## Checked models and valuations -/

/-- A model that passes the check is a valuation that makes all clauses true. -/
theorem satisfiable_of_check {m : Model} (h : f.check m = true) : Satisfiable f.clauses.toList := by
  refine ⟨m.read, ?_⟩
  intro c hc
  have hholds : c.holds m = true := Array.all_eq_true_iff_forall_mem.1 h c (Array.mem_def.2 hc)
  unfold Clause.holds at hholds
  unfold Clause.isTrueIn
  rw [Bool.or_eq_true, beq_iff_eq, beq_iff_eq] at hholds
  rcases hholds with hleft | hright
  · rw [Lit.isTrueIn_read hleft]
    rfl
  · rw [Lit.isTrueIn_read hright, Bool.or_true]

/-- A literal that shares its component with its negation cannot have a truth value. -/
theorem not_satisfiable_of_shared (hp : p.Represents f) {l : Lit} {i : Nat}
    (hi : p.componentOf? l = some i) (hneg : p.componentOf? l.neg = some i) :
    ¬ Satisfiable f.clauses.toList := by
  rintro ⟨v, hv⟩
  have hall : ∀ c ∈ f.clauses, c.isTrueIn v = true := by
    intro c hc
    exact hv c (Array.mem_def.1 hc)
  have heq := hp.isTrueIn_eq l l.neg i hi hneg v hall
  rw [Lit.isTrueIn_neg] at heq
  cases hl : l.isTrueIn v <;> simp [hl] at heq

/-- The components decide a formula: there is no conflict exactly if some valuation makes all clauses
true. -/
theorem conflict?_eq_none_iff (hf : f.Built) (hcoherent : f.Coherent) (hp : p.Represents f) :
    p.conflict? = none ↔ Satisfiable f.clauses.toList := by
  constructor
  · intro h
    have hfree := hp.tidy.conflict?_eq_none_iff.1 h
    exact satisfiable_of_check (check_resolve hf hcoherent hp hfree)
  · intro hsat
    apply hp.tidy.conflict?_eq_none_iff.2
    intro l i hi hneg
    exact not_satisfiable_of_shared hp hi hneg hsat

end Formula
end TwoCnf
