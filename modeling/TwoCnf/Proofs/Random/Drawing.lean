import TwoCnf.Proofs.Solver.Halves
import TwoCnf.Proofs.Solver.Table
import TwoCnf.Random.Instance

/-!
# Drawing — what a recipe draws from any source of words

* `Draw.Yields` — whatever words the source gives, a draw comes to a result, and the result has a property;
* `Draw.upTo_yields` — a number is drawn from its range, since a carry comes up only below the top of it;
* `Draw.InRange`, `Draw.half_yields` — halves stand for literals of the variables of the recipe;
* `Draw.Sound`, `Draw.mend_yields` — a clause that is mended is true under the hidden table;
* `Recipe.Followed`, `Recipe.draw_yields` — what an instance has to do with its recipe;
* `Recipe.generateFrom_cases` — a recipe is turned down with its complaint, or else it is followed.

Nothing is assumed about the words.
-/

namespace TwoCnf

namespace Draw

variable {σ α β : Type}

/-! ## Draws that come to a result -/

/-- Whatever the source is, there is a result, and it has the property. -/
def Yields (d : Draw σ α) (P : α → Prop) : Prop :=
  ∀ source, ∃ a rest, d source = .ok (a, rest) ∧ P a

theorem yields_pure {P : α → Prop} {a : α} (h : P a) : Yields (σ := σ) (pure a) P :=
  fun source => ⟨a, source, rfl, h⟩

theorem yields_lift {P : α → Prop} {e : Except RecipeError α} {a : α} (he : e = .ok a) (h : P a) :
    Yields (σ := σ) (liftM e) P := by
  rw [he]
  exact yields_pure h

theorem Yields.bind {d : Draw σ α} {P : α → Prop} {then_ : α → Draw σ β} {Q : β → Prop}
    (h : Yields d P) (hthen : ∀ a, P a → Yields (then_ a) Q) : Yields (d >>= then_) Q := by
  intro source
  rcases h source with ⟨a, rest, hd, ha⟩
  rcases hthen a ha rest with ⟨b, last, hb, hQ⟩
  refine ⟨b, last, ?_, hQ⟩
  show (d source >>= fun r => then_ r.1 r.2) = _
  rw [hd]
  exact hb

theorem Yields.mono {d : Draw σ α} {P Q : α → Prop} (h : Yields d P) (hPQ : ∀ a, P a → Q a) :
    Yields d Q := by
  intro source
  rcases h source with ⟨a, rest, hd, ha⟩
  exact ⟨a, rest, hd, hPQ a ha⟩

variable (next : σ → UInt32 × σ)

theorem word_yields : Yields (word next) fun _ => True :=
  fun source => ⟨(next source).1, (next source).2, rfl, trivial⟩

theorem bit_yields : Yields (bit next) fun _ => True :=
  (word_yields next).bind fun _ _ => yields_pure trivial

/-! ## Numbers from a range -/

theorem high_lt {w b : Nat} (hw : w < UInt32.size) (hb : 0 < b) : w * b / UInt32.size < b :=
  Nat.div_lt_of_lt_mul (Nat.mul_lt_mul_of_pos_right hw hb)

/-- With the largest upper half, the lower half is too small for a carry. -/
theorem high_succ_lt {w b : Nat} (hw : w < UInt32.size) (hb : 0 < b)
    (hlow : UInt32.size - b < w * b % UInt32.size) : w * b / UInt32.size + 1 < b := by
  have hlt := high_lt hw hb
  have hproduct : w * b ≤ 4294967295 * b := Nat.mul_le_mul_right b (Nat.le_of_lt_succ hw)
  have hsize : UInt32.size = 4294967296 := rfl
  rw [hsize] at hlow hlt ⊢
  omega

theorem toNat_ofNat_of_le {n : Nat} {bound : UInt32} (h : n ≤ bound.toNat) :
    (UInt32.ofNat n).toNat = n :=
  UInt32.toNat_ofNat_of_lt' (Nat.lt_of_le_of_lt h bound.toNat_lt)

theorem upTo_yields {bound : UInt32} (hbound : 0 < bound.toNat) :
    Yields (upTo next bound) fun x => x ≠ 0 ∧ x ≤ bound := by
  have hrange : ∀ n, n < bound.toNat → UInt32.ofNat (1 + n) ≠ 0 ∧ UInt32.ofNat (1 + n) ≤ bound := by
    intro n hn
    have hle : 1 + n ≤ bound.toNat := by omega
    have hnat := toNat_ofNat_of_le hle
    constructor
    · intro hzero
      rw [hzero] at hnat
      have hcontra : 0 = 1 + n := hnat
      omega
    · rw [UInt32.le_iff_toNat_le, hnat]
      exact hle
  refine (word_yields next).bind ?_
  intro w _
  have hw : w.toNat < UInt32.size := w.toNat_lt
  dsimp only
  split
  · rename_i hlow
    -- a second word may carry one over, but only where there is room for it
    refine (word_yields next).bind ?_
    intro w' _
    apply yields_pure
    have hhigh := high_succ_lt hw hbound hlow
    have hhigh' := high_lt w'.toNat_lt hbound
    have hcarry : (w.toNat * bound.toNat % UInt32.size + w'.toNat * bound.toNat / UInt32.size) /
        UInt32.size ≤ 1 := by
      have hlt : w.toNat * bound.toNat % UInt32.size < UInt32.size := Nat.mod_lt _ (by decide)
      have hb : bound.toNat < UInt32.size := bound.toNat_lt
      have hsize : UInt32.size = 4294967296 := rfl
      rw [hsize] at hlt hb hhigh' ⊢
      omega
    rw [Nat.add_assoc]
    exact hrange _ (by omega)
  · exact yields_pure (hrange _ (high_lt hw hbound))

/-! ## Halves -/

/-- A half stands for a literal of one of the variables. -/
structure InRange (vars : UInt32) (x : Int32) : Prop where
  ne_zero : x ≠ 0
  le : magnitude x ≤ vars

namespace InRange

variable {vars : UInt32} {x : Int32}

theorem natAbs_le (h : InRange vars x) : x.toInt.natAbs ≤ vars.toNat := by
  rw [← toNat_magnitude]
  exact UInt32.le_iff_toNat_le.1 h.le

theorem toNat_bounds (h : InRange vars x) :
    1 ≤ (magnitude x).toNat ∧ (magnitude x).toNat ≤ vars.toNat := by
  refine ⟨Nat.one_le_iff_ne_zero.2 ?_, UInt32.le_iff_toNat_le.1 h.le⟩
  intro hzero
  exact magnitude_ne_zero h.ne_zero (UInt32.toNat_inj.1 hzero)

theorem toInt_ne_zero (h : InRange vars x) : x.toInt ≠ 0 :=
  fun hzero => h.ne_zero (Int32.toInt_inj.1 hzero)

/-- Variables end at `2147483647`, so every half has an opposite. -/
theorem toInt_neg (h : InRange vars x) (hvars : vars.toNat < 2147483648) :
    (-x).toInt = -x.toInt := by
  have hle := h.natAbs_le
  rw [Int32.toInt_neg]
  exact Int.bmod_eq_of_le (by omega) (by omega)

theorem magnitude_neg (h : InRange vars x) (hvars : vars.toNat < 2147483648) :
    magnitude (-x) = magnitude x := by
  apply UInt32.toNat_inj.1
  rw [toNat_magnitude, toNat_magnitude, h.toInt_neg hvars, Int.natAbs_neg]

theorem neg (h : InRange vars x) (hvars : vars.toNat < 2147483648) : InRange vars (-x) where
  ne_zero := by
    intro hzero
    have hint := h.toInt_neg hvars
    rw [hzero] at hint
    exact h.toInt_ne_zero (Int.neg_eq_zero.1 hint.symm)
  le := by
    rw [h.magnitude_neg hvars]
    exact h.le

theorem pos_neg (h : InRange vars x) (hvars : vars.toNat < 2147483648) :
    decide (0 < -x) = !decide (0 < x) := by
  have hne := h.toInt_ne_zero
  have hint := h.toInt_neg hvars
  have hpos : 0 < -x ↔ ¬ 0 < x := by
    rw [Int32.lt_iff_toInt_lt, Int32.lt_iff_toInt_lt, hint]
    show 0 < -x.toInt ↔ ¬ 0 < x.toInt
    omega
  rw [decide_eq_decide.2 hpos, decide_not]

end InRange

theorem toInt_toInt32 {x : UInt32} (h : x.toNat < 2147483648) : x.toInt32.toInt = x.toNat := by
  apply BitVec.toInt_eq_toNat_of_lt
  show 2 * x.toNat < 2 ^ 32
  omega

theorem inRange_toInt32 {vars x : UInt32} (hvars : vars.toNat < 2147483648) (hne : x ≠ 0)
    (hle : x ≤ vars) : InRange vars x.toInt32 := by
  have hlt : x.toNat < 2147483648 := Nat.lt_of_le_of_lt (UInt32.le_iff_toNat_le.1 hle) hvars
  have hint := toInt_toInt32 hlt
  constructor
  · intro hzero
    rw [hzero] at hint
    exact hne (UInt32.toNat_inj.1 (Int.ofNat_inj.1 hint.symm))
  · rw [UInt32.le_iff_toNat_le, toNat_magnitude, hint, Int.natAbs_natCast]
    exact UInt32.le_iff_toNat_le.1 hle

theorem half_yields {vars : UInt32} (hpos : 0 < vars.toNat) (hvars : vars.toNat < 2147483648) :
    Yields (half next vars) (InRange vars) := by
  refine (upTo_yields next hpos).bind ?_
  rintro x ⟨hne, hle⟩
  have hx := inRange_toInt32 hvars hne hle
  refine (bit_yields next).bind ?_
  intro positive _
  cases positive with
  | true =>
      exact yields_pure hx
  | false =>
      exact yields_pure (hx.neg hvars)

/-! ## Tables of bits -/

/-- Bits are appended, so the places in front of them stay as they are. -/
theorem bits_yields (n : Nat) (table : Array Bool) :
    Yields (bits next n table) fun t => t.size = table.size + n ∧ table.toList <+: t.toList := by
  induction n generalizing table with
  | zero =>
      exact yields_pure ⟨rfl, List.prefix_refl _⟩
  | succ n ih =>
      refine (bit_yields next).bind ?_
      intro b _
      refine (ih (table.push b)).mono ?_
      rintro t ⟨hsize, hfront⟩
      rw [Array.size_push] at hsize
      rw [Array.toList_push] at hfront
      exact ⟨by omega, (List.prefix_append _ _).trans hfront⟩

section Mending

variable {vars : UInt32} {table : Array Bool}

/-- Every half finds its place in the table. -/
theorem truth_eq {x : Int32} (hx : InRange vars x) (htable : table.size = vars.toNat + 1) :
    truth table x = .ok (Valuation.ofTable table (magnitude x) == decide (0 < x)) := by
  have hlt : (magnitude x).toNat < table.size := by
    have hle := UInt32.le_iff_toNat_le.1 hx.le
    omega
  have hentry : entry table (magnitude x).toNat = .ok (Valuation.ofTable table (magnitude x)) := by
    rw [entry_eq_ok, Valuation.ofTable, Array.getD_eq_getD_getElem?, Array.getElem?_eq_getElem hlt]
    rfl
  unfold truth
  rw [hentry]
  by_cases hpos : 0 < x
  · simp [hpos]
  · simp [hpos]

/-- A half that is false under the table is true after a flip. -/
theorem ofTable_neg {x : Int32} (hx : InRange vars x) (hvars : vars.toNat < 2147483648)
    (hfalse : (Valuation.ofTable table (magnitude x) == decide (0 < x)) = false) :
    Valuation.ofTable table (magnitude (-x)) = decide (0 < -x) := by
  rw [hx.magnitude_neg hvars, hx.pos_neg hvars]
  exact Bool.eq_not.2 (by simpa using hfalse)

/-- Both halves stand for literals of the variables, and one of them is true under the hidden table if
there is one. -/
structure Sound (vars : UInt32) (hidden : Option (Array Bool)) (halves : Int32 × Int32) : Prop where
  left : InRange vars halves.1
  right : InRange vars halves.2
  isTrue : ∀ table, hidden = some table → HalfTrueIn halves (Valuation.ofTable table)

theorem mend_yields (hvars : vars.toNat < 2147483648) (htable : table.size = vars.toNat + 1)
    {a b : Int32} (ha : InRange vars a) (hb : InRange vars b) :
    Yields (mend next table a b) (Sound vars (some table)) := by
  have hsound : ∀ {a b}, InRange vars a → InRange vars b → HalfTrueIn (a, b) (Valuation.ofTable table) →
      Sound vars (some table) (a, b) := by
    intro a b ha hb htrue
    refine ⟨ha, hb, ?_⟩
    rintro _ ⟨⟩
    exact htrue
  refine (yields_lift (truth_eq ha htable) (P := (_ = ·)) rfl).bind ?_
  rintro _ rfl
  split
  · rename_i htrue
    exact yields_pure (hsound ha hb (Or.inl (by simpa using htrue)))
  · rename_i hleft
    refine (yields_lift (truth_eq hb htable) (P := (_ = ·)) rfl).bind ?_
    rintro _ rfl
    split
    · rename_i htrue
      exact yields_pure (hsound ha hb (Or.inr (by simpa using htrue)))
    · rename_i hright
      -- both are false, so either flip makes the clause true
      refine (bit_yields next).bind ?_
      intro first _
      cases first with
      | true =>
          exact yields_pure (hsound (ha.neg hvars) hb
            (Or.inl (ofTable_neg ha hvars (Bool.not_eq_true _ ▸ hleft))))
      | false =>
          exact yields_pure (hsound ha (hb.neg hvars)
            (Or.inr (ofTable_neg hb hvars (Bool.not_eq_true _ ▸ hright))))

end Mending

/-! ## Clauses -/

variable {vars : UInt32} {hidden : Option (Array Bool)}

theorem clause_yields (hpos : 0 < vars.toNat) (hvars : vars.toNat < 2147483648)
    (hhidden : ∀ table, hidden = some table → table.size = vars.toNat + 1) :
    Yields (clause next vars hidden) (Sound vars hidden) := by
  refine (half_yields next hpos hvars).bind ?_
  intro a ha
  refine (half_yields next hpos hvars).bind ?_
  intro b hb
  cases hidden with
  | none =>
      refine yields_pure ⟨ha, hb, ?_⟩
      rintro _ ⟨⟩
  | some table =>
      exact mend_yields next hvars (hhidden table rfl) ha hb

/-- A run of draws: one clause is appended by each, and all are sound if those at hand are. Without
variables there is nothing to draw. -/
theorem clauses_yields (hvars : vars.toNat < 2147483648)
    (hhidden : ∀ table, hidden = some table → table.size = vars.toNat + 1) (n : Nat)
    (hpos : n ≠ 0 → 0 < vars.toNat) {drawn : Array (Int32 × Int32)}
    (hdrawn : ∀ halves ∈ drawn, Sound vars hidden halves) :
    Yields (clauses next vars hidden n drawn) fun all =>
      all.size = drawn.size + n ∧ ∀ halves ∈ all, Sound vars hidden halves := by
  induction n generalizing drawn with
  | zero =>
      exact yields_pure ⟨rfl, hdrawn⟩
  | succ n ih =>
      have hpos' := hpos (Nat.succ_ne_zero n)
      refine (clause_yields next hpos' hvars hhidden).bind ?_
      intro halves hhalves
      have hpush : ∀ other ∈ drawn.push halves, Sound vars hidden other := by
        intro other hother
        rcases Array.mem_push.1 hother with hold | rfl
        · exact hdrawn other hold
        · exact hhalves
      refine (ih (fun _ => hpos') hpush).mono ?_
      rintro all ⟨hsize, hsound⟩
      rw [Array.size_push] at hsize
      exact ⟨by omega, hsound⟩

end Draw

/-! ## Instances -/

namespace Recipe

/-- There is a hidden table exactly if one is asked for. It has a place for each variable, behind one that
is not used. -/
structure Hides (r : Recipe) (hidden : Option (Array Bool)) : Prop where
  isSome : hidden.isSome = r.planted
  size : ∀ table, hidden = some table → table.size = r.vars.toNat + 1
  unused : ∀ table, hidden = some table → table[0]? = some false

/-- What an instance owes to its recipe: the counts are declared as they were asked for, there are as many
clauses, and these are sound for what is hidden. -/
structure Followed (r : Recipe) (i : Instance) : Prop where
  declaredVars : i.listing.declaredVars = some r.vars
  declaredClauses : i.listing.declaredClauses = some r.clauses
  length : i.listing.clauses.length = r.clauses.toNat
  sound : ∀ halves ∈ i.listing.clauses, Draw.Sound r.vars i.hidden halves
  hides : r.Hides i.hidden

variable {σ : Type} (next : σ → UInt32 × σ) {r : Recipe}

theorem complaint?_eq_none_iff :
    r.complaint? = none ↔ (r.clauses.toNat ≠ 0 → 0 < r.vars.toNat) ∧ r.vars.toNat < 2147483648 ∧
      r.clauses ≤ maxClauses := by
  have hzero : r.vars = 0 ∧ 0 < r.clauses ↔ ¬ (r.clauses.toNat ≠ 0 → 0 < r.vars.toNat) := by
    rw [← UInt32.toNat_inj, UInt64.lt_iff_toNat_lt]
    show r.vars.toNat = 0 ∧ 0 < r.clauses.toNat ↔ _
    omega
  have hlarge : 0x7fffffff < r.vars ↔ ¬ r.vars.toNat < 2147483648 := by
    rw [UInt32.lt_iff_toNat_lt]
    show 2147483647 < r.vars.toNat ↔ _
    omega
  unfold complaint?
  rw [if_congr hzero rfl rfl, if_congr hlarge rfl rfl]
  split
  · rename_i hnone
    simp [hnone]
  · rename_i hsome
    split
    · rename_i hmany
      simp [hmany]
    · rename_i hfew
      rw [ite_eq_right_iff, ← UInt64.not_lt]
      constructor
      · intro hclauses
        exact ⟨not_not.1 hsome, not_not.1 hfew, fun hlong => Option.some_ne_none _ (hclauses hlong)⟩
      · rintro ⟨_, _, hle⟩ hlong
        exact absurd hlong hle

/-- A recipe without a complaint is followed, whatever the words are. -/
theorem draw_yields (h : r.complaint? = none) : Draw.Yields (r.draw next) (Followed r) := by
  rcases complaint?_eq_none_iff.1 h with ⟨hpos, hvars, _⟩
  have hclauses : ∀ hidden, r.Hides hidden →
      Draw.Yields (Draw.clauses next r.vars hidden r.clauses.toNat #[] >>= fun clauses =>
        pure ⟨⟨some r.vars, some r.clauses, clauses.toList⟩, hidden⟩) (Followed r) := by
    intro hidden hhidden
    refine (Draw.clauses_yields next hvars hhidden.size r.clauses.toNat hpos ?_).bind ?_
    · intro halves hhalves
      exact absurd hhalves (Array.not_mem_empty halves)
    · rintro all ⟨hsize, hsound⟩
      apply Draw.yields_pure
      exact
        { declaredVars := rfl
          declaredClauses := rfl
          length := hsize.trans (Nat.zero_add _)
          sound := fun halves hhalves => hsound halves (Array.mem_toList_iff.1 hhalves)
          hides := hhidden }
  -- what is hidden is drawn first, and the clauses are the same draw with or without it
  unfold draw
  by_cases hplanted : r.planted = true
  · simp only [hplanted, if_true, map_eq_pure_bind, bind_assoc, pure_bind]
    refine (Draw.bits_yields next r.vars.toNat #[false]).bind ?_
    rintro table ⟨hsize, rest, hfront⟩
    apply hclauses
    refine ⟨hplanted.symm, ?_, ?_⟩
    · rintro _ ⟨⟩
      rw [hsize]
      exact Nat.add_comm _ _
    · rintro _ ⟨⟩
      rw [← Array.getElem?_toList, ← hfront]
      rfl
  · rw [if_neg hplanted, pure_bind]
    apply hclauses
    refine ⟨(Bool.eq_false_iff.2 hplanted).symm, ?_, ?_⟩
    · rintro _ ⟨⟩
    · rintro _ ⟨⟩

variable {next} {source : σ} {i : Instance}

/-- A recipe is turned down with its complaint, or else it is followed. -/
theorem generateFrom_cases (next : σ → UInt32 × σ) (source : σ) (r : Recipe) :
    (∃ e, r.complaint? = some e ∧ r.generateFrom next source = .error e) ∨
      r.complaint? = none ∧ ∃ i, r.generateFrom next source = .ok i ∧ r.Followed i := by
  unfold generateFrom
  cases hcomplaint : r.complaint? with
  | some complaint =>
      exact Or.inl ⟨complaint, rfl, rfl⟩
  | none =>
      rcases draw_yields next hcomplaint source with ⟨i, rest, hdraw, hfollowed⟩
      have hrun : (r.draw next).run source = .ok (i, rest) := hdraw
      refine Or.inr ⟨rfl, i, ?_, hfollowed⟩
      simp only [hrun]
      rfl

theorem followed_of_generateFrom (h : r.generateFrom next source = .ok i) :
    r.complaint? = none ∧ r.Followed i := by
  rcases generateFrom_cases next source r with ⟨_, _, herror⟩ | ⟨hnone, j, hok, hfollowed⟩
  · cases h.symm.trans herror
  · cases h.symm.trans hok
    exact ⟨hnone, hfollowed⟩

end Recipe
end TwoCnf
