import TwoCnf.Proofs.Solver.Halves
import TwoCnf.Reference.Engine

/-!
# Engine — what is relied on

* `IntTrueIn`, `PairTrueIn` — what signed integers and clauses of two of them mean. A literal and its
  signed integer mean the same (`Lit.intTrueIn_toInt`);
* `Engine.Reached` — the states that an engine gets to while clauses are added and decided in any order;
* `Engine.Right` — in all these states it decides the clauses that it was given, and a model that it gives
  makes them true and names every variable of theirs.

An engine need not accept every variable, and nothing is asked of it once it was given one that it does not
accept.
-/

namespace TwoCnf

/-- The variable of a signed integer has the value that the sign asks for. -/
def IntTrueIn (v : Nat → Bool) (x : Int) : Prop :=
  v x.natAbs = decide (0 < x)

/-- One of the two signed integers is true. -/
def PairTrueIn (v : Nat → Bool) (pair : Int × Int) : Prop :=
  IntTrueIn v pair.1 ∨ IntTrueIn v pair.2

theorem Lit.natAbs_toInt (l : Lit) : l.toInt.natAbs = l.var.toNat := by
  unfold Lit.toInt
  split <;> simp

theorem Lit.toInt_pos_iff {l : Lit} (h : l.var ≠ 0) : 0 < l.toInt ↔ l.sign = true := by
  have hpos : 0 < l.var.toNat := by
    refine Nat.pos_of_ne_zero ?_
    intro hzero
    exact h (UInt32.toNat_inj.1 hzero)
  unfold Lit.toInt
  split
  · rename_i hsign
    simp [hsign, hpos]
  · rename_i hsign
    simp [hsign]

/-- A literal and its signed integer mean the same. -/
theorem Lit.intTrueIn_toInt {l : Lit} (h : l.var ≠ 0) (v : Nat → Bool) :
    IntTrueIn v l.toInt ↔ l.isTrueIn (fun x => v x.toNat) = true := by
  have hsign : decide (0 < l.toInt) = l.sign := by
    rw [Bool.eq_iff_iff, decide_eq_true_iff]
    exact Lit.toInt_pos_iff h
  rw [Lit.isTrueIn_iff, IntTrueIn, Lit.natAbs_toInt, hsign]

namespace Engine

/-- A state that the engine gets to, with the clauses that it was given on the way. -/
inductive Reached (e : Engine) (Accepts : Nat → Prop) : e.State → List (Int × Int) → Prop where
  | start : Reached e Accepts e.start []
  | add {s : e.State} {given : List (Int × Int)} {a b : Int} (h : Reached e Accepts s given)
      (ha : Accepts a.natAbs) (hb : Accepts b.natAbs) :
      Reached e Accepts (e.add s a b) (given ++ [(a, b)])
  | solve {s : e.State} {given : List (Int × Int)} (h : Reached e Accepts s given) :
      Reached e Accepts (e.solve s).2 given

/-- The engine is sound and complete for the variables that it accepts, and its models leave no variable
out. Zero is no variable. -/
structure Right (e : Engine) (Accepts : Nat → Prop) : Prop where
  ne_zero : ∀ n, Accepts n → n ≠ 0
  decides : ∀ s given, Reached e Accepts s given → ∃ sat, (e.solve s).1 = .ok sat ∧
    (sat = true ↔ ∃ v, ∀ pair ∈ given, PairTrueIn v pair)
  model : ∀ s given, Reached e Accepts s given → (e.solve s).1 = .ok true →
    ∃ lits, e.model? (e.solve s).2 = some lits ∧
      (∃ v, (∀ pair ∈ given, PairTrueIn v pair) ∧ ∀ x ∈ lits, IntTrueIn v x) ∧
      ∀ pair ∈ given, (∃ x ∈ lits, x.natAbs = pair.1.natAbs) ∧ ∃ x ∈ lits, x.natAbs = pair.2.natAbs

end Engine
end TwoCnf
