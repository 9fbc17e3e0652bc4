import TwoCnf.Proofs.Random.Pipeline

/-!
# Planting — what a recipe comes to, whatever the words are

* `Recipe.Unfit` — the recipes that cannot be followed, and `Recipe.exists_complaint_iff`;
* `Recipe.Followed.natAbs_bounds` — the halves of an instance are numbers of variables, up to their sign;
* `Recipe.Followed.check_hidden` — the hidden table of an instance passes the check of its clauses;
* `generated_as_asked` — a recipe that is not unfit gives an instance with all that was asked for;
* `generate_beyond_capacity` — too many clauses are a reason of their own to turn a recipe down.
-/

namespace TwoCnf

namespace Recipe

/-- There are clauses to draw but no variables, or more variables than signed literals can name, or more
clauses than an instance can hold. -/
def Unfit (r : Recipe) : Prop :=
  (r.vars = 0 ∧ 0 < r.clauses) ∨ 2147483647 < r.vars ∨ maxClauses < r.clauses

theorem exists_complaint_iff {r : Recipe} : (∃ e, r.complaint? = some e) ↔ r.Unfit := by
  unfold complaint? Unfit
  by_cases hnone : r.vars = 0 ∧ 0 < r.clauses
  · rw [if_pos hnone]
    exact iff_of_true ⟨_, rfl⟩ (Or.inl hnone)
  · by_cases hmany : 2147483647 < r.vars
    · rw [if_neg hnone, if_pos hmany]
      exact iff_of_true ⟨_, rfl⟩ (Or.inr (Or.inl hmany))
    · by_cases hlong : maxClauses < r.clauses
      · rw [if_neg hnone, if_neg hmany, if_pos hlong]
        exact iff_of_true ⟨_, rfl⟩ (Or.inr (Or.inr hlong))
      · rw [if_neg hnone, if_neg hmany, if_neg hlong]
        refine iff_of_false ?_ (not_or.2 ⟨hnone, not_or.2 ⟨hmany, hlong⟩⟩)
        rintro ⟨e, he⟩
        cases he

/-- A complaint is about the recipe, never about a look-up that failed on the way. -/
theorem complaint?_ne_fault (r : Recipe) (fault : Fault) : r.complaint? ≠ some (.fault fault) := by
  unfold complaint?
  split
  · simp
  · split
    · simp
    · split <;> simp

namespace Followed

variable {r : Recipe} {i : Instance}

theorem natAbs_bounds (h : r.Followed i) : ∀ halves ∈ i.listing.clauses, ∀ x,
    x = halves.1 ∨ x = halves.2 → x ≠ 0 ∧ 1 ≤ x.toInt.natAbs ∧ x.toInt.natAbs ≤ r.vars.toNat := by
  intro halves hmem x hx
  have hrange : Draw.InRange r.vars x := by
    rcases hx with rfl | rfl
    · exact (h.sound halves hmem).left
    · exact (h.sound halves hmem).right
  rw [← toNat_magnitude]
  exact ⟨hrange.ne_zero, hrange.toNat_bounds⟩

/-- Each variable of a clause has its place in the hidden table, and the table makes the clause true. -/
theorem check_hidden (h : r.Followed i) (hvars : r.vars.toNat < 2147483648) {table : Array Bool}
    (htable : i.hidden = some table) :
    (Loading.ofListing i.listing).solver.formula.check (.ofBits table) = true := by
  have hsize : table.size = r.vars.toNat + 1 := h.hides.size table htable
  -- the clauses that are checked are those of the listing
  have hclause : ∀ c ∈ (Solver.ofHalves i.listing.clauses).formula.clauses,
      ∃ halves ∈ i.listing.clauses, Clause.ofHalves halves = c := by
    intro c hc
    rw [Array.mem_def, Solver.clauses_ofHalves] at hc
    exact List.mem_map.1 hc
  have hle : table.size ≤ UInt32.size := by
    have hlarge : 2147483648 ≤ UInt32.size := by decide
    omega
  rw [h.solver_eq]
  apply Formula.check_ofBits hle
  · intro c hc x hx
    rcases hclause c hc with ⟨halves, hmem, rfl⟩
    have hrange : x ≠ 0 ∧ x.toNat ≤ r.vars.toNat := by
      rcases hx with rfl | rfl
      · exact ⟨magnitude_ne_zero (h.sound halves hmem).left.ne_zero,
          (h.sound halves hmem).left.toNat_bounds.2⟩
      · exact ⟨magnitude_ne_zero (h.sound halves hmem).right.ne_zero,
          (h.sound halves hmem).right.toNat_bounds.2⟩
    exact ⟨hrange.1, by omega⟩
  · intro c hc
    rcases hclause c hc with ⟨halves, hmem, rfl⟩
    exact (Clause.isTrueIn_ofHalves halves _).2 ((h.sound halves hmem).isTrue table htable)

end Followed
end Recipe

/-- Any recipe and any source of words. The recipe is turned down exactly if it is unfit, and no look-up
fails on the way. Otherwise there are as many clauses as were asked for, the halves are not zero and name
variables of the recipe, and both counts are declared. Loading the clauses skips none. A planted instance,
and no other, has a hidden table. It has a place for each variable behind one that is false, every clause is
true under it, and its model passes the check. -/
theorem generated_as_asked {σ : Type} (next : σ → UInt32 × σ) (source : σ) (r : Recipe) :
    ((∃ e, r.generateFrom next source = .error e) ↔ r.Unfit) ∧
      (∀ fault, r.generateFrom next source ≠ .error (.fault fault)) ∧
      (¬ r.Unfit → ∃ i, r.generateFrom next source = .ok i ∧
        i.listing.clauses.length = r.clauses.toNat ∧
        (∀ halves ∈ i.listing.clauses, ∀ x, x = halves.1 ∨ x = halves.2 →
          x ≠ 0 ∧ 1 ≤ x.toInt.natAbs ∧ x.toInt.natAbs ≤ r.vars.toNat) ∧
        i.listing.declaredVars = some r.vars ∧ i.listing.declaredClauses = some r.clauses ∧
        (Loading.ofListing i.listing).skipped = #[] ∧ i.hidden.isSome = r.planted ∧
        ∀ table, i.hidden = some table → table.size = r.vars.toNat + 1 ∧ table[0]? = some false ∧
          (∀ halves ∈ i.listing.clauses, HalfTrueIn halves (Valuation.ofTable table)) ∧
          (Loading.ofListing i.listing).solver.formula.check (.ofBits table) = true) := by
  rw [← Recipe.exists_complaint_iff]
  rcases r.generateFrom_cases next source with ⟨e, hcomplaint, herror⟩ | ⟨hnone, i, hok, hfollowed⟩
  · refine ⟨iff_of_true ⟨e, herror⟩ ⟨e, hcomplaint⟩, ?_, fun hfit => absurd ⟨e, hcomplaint⟩ hfit⟩
    intro fault hfault
    cases herror.symm.trans hfault
    exact r.complaint?_ne_fault fault hcomplaint
  · have hvars := (Recipe.complaint?_eq_none_iff.1 hnone).2.1
    refine ⟨iff_of_false ?_ ?_, ?_, fun _ => ⟨i, hok, hfollowed.length, hfollowed.natAbs_bounds,
      hfollowed.declaredVars, hfollowed.declaredClauses, hfollowed.skipped_eq, hfollowed.hides.isSome,
      ?_⟩⟩
    · rintro ⟨e, he⟩
      cases hok.symm.trans he
    · rintro ⟨e, he⟩
      cases hnone.symm.trans he
    · intro fault hfault
      cases hok.symm.trans hfault
    · intro table htable
      exact ⟨hfollowed.hides.size table htable, hfollowed.hides.unused table htable,
        fun halves hmem => (hfollowed.sound halves hmem).isTrue table htable,
        hfollowed.check_hidden hvars htable⟩

/-- There are variables, and not too many of them, but `1152921504606846976` clauses cannot be held. -/
theorem generate_beyond_capacity :
    Recipe.generate ⟨3, 1152921504606846976, 1, false⟩ = .error .tooManyClauses ∧
      ¬ (((3 : UInt32) = 0 ∧ (0 : UInt64) < 1152921504606846976) ∨ (2147483647 : UInt32) < 3) := by
  refine ⟨rfl, ?_⟩
  decide

end TwoCnf
