import TwoCnf.Literal

/-!
# Valuation — what clauses mean

A `Valuation` gives every variable a truth value. It makes a literal true or false, and a clause true
when it makes one of its literals true; clauses are `Satisfiable` when one valuation makes all of them
true.
-/

namespace TwoCnf

/-- A truth value for every variable. -/
abbrev Valuation :=
  UInt32 → Bool

/-- The value of a literal. -/
def Lit.isTrueIn (l : Lit) (v : Valuation) : Bool :=
  if l.sign then v l.var else !v l.var

/-- The value of a clause. -/
def Clause.isTrueIn (c : Clause) (v : Valuation) : Bool :=
  c.left.isTrueIn v || c.right.isTrueIn v

/-- Some valuation makes all clauses true. -/
def Satisfiable (cs : List Clause) : Prop :=
  ∃ v : Valuation, ∀ c ∈ cs, c.isTrueIn v = true

@[simp] theorem Lit.isTrueIn_neg (l : Lit) (v : Valuation) :
    l.neg.isTrueIn v = !l.isTrueIn v := by
  cases hs : l.sign <;> simp [Lit.isTrueIn, hs]

end TwoCnf
