import TwoCnf.Proofs.Solver.Resolution

/-!
# Table — models of tables of bits

* `Valuation.ofTable` — the valuation that reads its values off a table;
* `Model.read_ofBits`, `Lit.eval?_ofBits` — the model of a table has the values of the table, although it
  stores the true ones only;
* `Formula.check_ofBits` — so it passes the check of clauses that are true under the table.

Tables have at most `4294967296` places, as many as there are numbers of variables.
-/

namespace TwoCnf

/-- The valuation that reads its values off a table, false beyond the end of it. -/
def Valuation.ofTable (table : Array Bool) : Valuation :=
  fun x => table.getD x.toNat false

/-! ## What is stored -/

/-- Storing the true ones of some bits leaves true what they name, and the rest as it was. -/
theorem getElem?_foldl_true (pairs : List (Bool × Nat)) (stored : Std.TreeMap UInt32 Bool) (x : UInt32) :
    (pairs.foldl (fun stored (bit, var) => if bit then stored.insert (UInt32.ofNat var) true else stored)
      stored)[x]? = some true ↔
      (∃ n, (true, n) ∈ pairs ∧ UInt32.ofNat n = x) ∨ stored[x]? = some true := by
  induction pairs generalizing stored with
  | nil =>
      simp
  | cons pair pairs ih =>
      rcases pair with ⟨bit, n⟩
      rw [List.foldl_cons, ih]
      cases bit with
      | false =>
          simp
      | true =>
          simp only [if_true, getElem?_insert_eq, List.mem_cons, Prod.mk.injEq, true_and, or_and_right,
            exists_or, exists_eq_left]
          by_cases hx : x = UInt32.ofNat n
          · simp [hx]
          · simp [hx, Ne.symm hx]

/-- The bits behind the first one, with their places. -/
theorem mem_drop_zipIdx {bits : List Bool} {b : Bool} {n : Nat} :
    (b, n) ∈ bits.zipIdx.drop 1 ↔ n ≠ 0 ∧ bits[n]? = some b := by
  cases bits with
  | nil =>
      simp
  | cons first bits =>
      rw [List.zipIdx_cons, List.drop_one, List.tail_cons, List.mk_mem_zipIdx_iff_le_and_getElem?_sub]
      cases n with
      | zero =>
          simp
      | succ n =>
          simp

namespace Model

variable {bits : Array Bool}

theorem numVars_ofBits (hsize : bits.size ≤ UInt32.size) :
    (ofBits bits).numVars.toNat = bits.size - 1 := by
  have hlt : bits.size - 1 < UInt32.size := by
    have hpos : 0 < UInt32.size := by decide
    omega
  exact UInt32.toNat_ofNat_of_lt' hlt

theorem stored_ofBits (hsize : bits.size ≤ UInt32.size) {x : UInt32} (hx : x ≠ 0) :
    (ofBits bits).stored[x]? = some true ↔ bits[x.toNat]? = some true := by
  have hne : x.toNat ≠ 0 := fun hzero => hx (UInt32.toNat_inj.1 hzero)
  unfold ofBits
  rw [getElem?_foldl_true]
  simp only [mem_drop_zipIdx, Array.getElem?_toList]
  constructor
  · rintro (⟨n, ⟨_, hn⟩, rfl⟩ | hnone)
    · have hlt : n < bits.size := (Array.getElem?_eq_some_iff.1 hn).1
      rw [UInt32.toNat_ofNat_of_lt' (Nat.lt_of_lt_of_le hlt hsize)]
      exact hn
    · simp at hnone
  · intro hbit
    exact Or.inl ⟨x.toNat, ⟨hne, hbit⟩, UInt32.ofNat_toNat⟩

theorem read_ofBits (hsize : bits.size ≤ UInt32.size) {x : UInt32} (hx : x ≠ 0) :
    (ofBits bits).read x = Valuation.ofTable bits x := by
  have hgetD : ∀ o : Option Bool, o.getD false = true ↔ o = some true := by
    intro o
    cases o <;> simp
  unfold read Valuation.ofTable
  rw [Bool.eq_iff_iff, hgetD, Std.TreeMap.get?_eq_getElem?, stored_ofBits hsize hx,
    Array.getD_eq_getD_getElem?, hgetD]

end Model

/-! ## What holds -/

variable {bits : Array Bool}

theorem Lit.eval?_ofBits (hsize : bits.size ≤ UInt32.size) {l : Lit} (hne : l.var ≠ 0)
    (hlt : l.var.toNat < bits.size) :
    l.eval? (Model.ofBits bits) = some (l.isTrueIn (Valuation.ofTable bits)) := by
  have hle : l.var ≤ (Model.ofBits bits).numVars := by
    rw [UInt32.le_iff_toNat_le, Model.numVars_ofBits hsize]
    omega
  rw [Lit.eval?_eq_isTrueIn hne hle]
  unfold Lit.isTrueIn
  rw [Model.read_ofBits hsize hne]

theorem Clause.holds_ofBits (hsize : bits.size ≤ UInt32.size) {c : Clause}
    (hvars : ∀ x, c.Mentions x → x ≠ 0 ∧ x.toNat < bits.size) :
    c.holds (Model.ofBits bits) = c.isTrueIn (Valuation.ofTable bits) := by
  rcases hvars _ (Or.inl rfl) with ⟨hleft, hleft'⟩
  rcases hvars _ (Or.inr rfl) with ⟨hright, hright'⟩
  exact Clause.holds_eq_isTrueIn (Lit.eval?_ofBits hsize hleft hleft')
    (Lit.eval?_ofBits hsize hright hright')

theorem Formula.check_ofBits (hsize : bits.size ≤ UInt32.size) {f : Formula}
    (hvars : ∀ c ∈ f.clauses, ∀ x, c.Mentions x → x ≠ 0 ∧ x.toNat < bits.size)
    (htrue : ∀ c ∈ f.clauses, c.isTrueIn (Valuation.ofTable bits) = true) :
    f.check (Model.ofBits bits) = true := by
  unfold Formula.check
  rw [Array.all_eq_true_iff_forall_mem]
  intro c hc
  rw [Clause.holds_ofBits hsize (hvars c hc)]
  exact htrue c hc

end TwoCnf
