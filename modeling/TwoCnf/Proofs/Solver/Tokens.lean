import TwoCnf.Proofs.Solver.Resolution

/-!
# Tokens — the values of a model as they are written

* `valuationOf` — the values that a row of tokens stands for;
* `Model.valuationOf_tokens` — the tokens of a model stand for its values, so a clause that holds in the
  model is true by its tokens (`Clause.isTrueIn_tokens`).
-/

namespace TwoCnf

/-- The variables' values that tokens stand for, one token per variable from `1` on. -/
def valuationOf (tokens : List String) : Valuation :=
  fun x => decide (tokens[x.toNat - 1]? = some "1")

namespace Model

/-- The tokens of the variables that a model covers. -/
def tokens (m : Model) : List String :=
  (varsUpTo m.numVars).map fun var => if (m.value? var).getD false then "1" else "0"

theorem length_tokens (m : Model) : m.tokens.length = m.numVars.toNat := by
  simp [tokens, varsUpTo]

theorem mem_tokens (m : Model) : ∀ token ∈ m.tokens, token = "1" ∨ token = "0" := by
  intro token htoken
  rcases List.mem_map.1 htoken with ⟨var, _, rfl⟩
  split
  · exact Or.inl rfl
  · exact Or.inr rfl

/-- The tokens stand for the values that the model has. -/
theorem valuationOf_tokens {m : Model} {x : UInt32} (hx : x ≠ 0) (hle : x ≤ m.numVars) :
    valuationOf m.tokens x = m.read x := by
  have hpos : 0 < x.toNat := Nat.pos_of_ne_zero fun h => hx (UInt32.toNat_inj.1 h)
  have hlt : x.toNat - 1 < m.numVars.toNat := by
    rw [UInt32.le_iff_toNat_le] at hle
    omega
  have hvar : UInt32.ofNat (x.toNat - 1 + 1) = x := by
    rw [Nat.sub_add_cancel hpos, UInt32.ofNat_toNat]
  have htoken : m.tokens[x.toNat - 1]? = some (if m.read x then "1" else "0") := by
    simp only [tokens, varsUpTo, List.getElem?_map, List.getElem?_range hlt, Option.map_some]
    rw [hvar, value?_eq_read hx hle]
    rfl
  rw [valuationOf, htoken]
  cases m.read x <;> rfl

end Model

/-- A literal that is true in a model is true by its tokens. -/
theorem Lit.isTrueIn_tokens {m : Model} {l : Lit} (h : l.eval? m = some true) :
    l.isTrueIn (valuationOf m.tokens) = true := by
  have hcovered : l.var ≠ 0 ∧ l.var ≤ m.numVars := by
    unfold Lit.eval? Model.value? at h
    by_cases hout : l.var = 0 ∨ m.numVars < l.var
    · rw [if_pos hout] at h
      cases h
    · exact ⟨fun hzero => hout (Or.inl hzero), UInt32.not_lt.1 fun hlt => hout (Or.inr hlt)⟩
  have htrue := Lit.isTrueIn_read h
  rw [Lit.isTrueIn] at htrue ⊢
  rw [Model.valuationOf_tokens hcovered.1 hcovered.2]
  exact htrue

theorem Clause.isTrueIn_tokens {m : Model} {c : Clause} (h : c.holds m = true) :
    c.isTrueIn (valuationOf m.tokens) = true := by
  unfold Clause.holds at h
  rw [Clause.isTrueIn, Bool.or_eq_true]
  rcases Bool.or_eq_true_iff.1 h with hleft | hright
  · exact Or.inl (Lit.isTrueIn_tokens (beq_iff_eq.1 hleft))
  · exact Or.inr (Lit.isTrueIn_tokens (beq_iff_eq.1 hright))

end TwoCnf
