import Mathlib.Data.List.Induction
import TwoCnf.Proofs.Text.Words
import TwoCnf.Text.Decimal

/-!
# Numeral — how numbers are spelled

* `Numeral`, `Count`, `Signed` — digits, digits after at most one plus sign, and digits after at most one
  sign, each with the number that they spell. Leading zeros are allowed;
* `readNatural?_eq_some_iff`, `readInteger?_eq_some_iff` — reading without a bound accepts exactly the
  spellings of counts and of integers;
* `readUInt32?_eq_some_iff`, `readUInt64?_eq_some_iff`, `readInt32?_eq_some_iff` — reading within a width
  accepts exactly the spellings of the numbers of that width;
* `numeral_natural`, `signed_integer` — what is written spells the number.
-/

namespace TwoCnf
namespace Text
namespace Decimal

/-! ## Spellings -/

/-- One or more digits, and the number that they spell. -/
inductive Numeral : List Char → Nat → Prop where
  | digit {c : Char} (hc : c.isDigit = true) : Numeral [c] (c.toNat - '0'.toNat)
  | snoc {text : List Char} {n : Nat} {c : Char} (h : Numeral text n) (hc : c.isDigit = true) :
      Numeral (text ++ [c]) (10 * n + (c.toNat - '0'.toNat))

/-- The spellings of a count. -/
inductive Count : List Char → Nat → Prop where
  | bare {text : List Char} {n : Nat} (h : Numeral text n) : Count text n
  | plus {text : List Char} {n : Nat} (h : Numeral text n) : Count ('+' :: text) n

/-- The spellings of an integer. -/
inductive Signed : List Char → Int → Prop where
  | bare {text : List Char} {n : Nat} (h : Numeral text n) : Signed text n
  | plus {text : List Char} {n : Nat} (h : Numeral text n) : Signed ('+' :: text) n
  | minus {text : List Char} {n : Nat} (h : Numeral text n) : Signed ('-' :: text) (-(n : Int))

theorem Numeral.isDigit {text : List Char} {n : Nat} (h : Numeral text n) :
    ∀ c ∈ text, c.isDigit = true := by
  induction h with
  | digit hc =>
      simpa using hc
  | snoc _ hc ih =>
      intro c hmem
      rcases List.mem_append.1 hmem with hold | hlast
      · exact ih c hold
      · rw [List.mem_singleton.1 hlast]
        exact hc

theorem Numeral.ne_nil {text : List Char} {n : Nat} (h : Numeral text n) : text ≠ [] := by
  cases h with
  | digit _ =>
      simp
  | snoc _ _ =>
      simp

/-! ## Reading -/

theorem readDigits?_eq_some_iff {text : List Char} {n : Nat} :
    readDigits? text = some n ↔ Numeral text n := by
  unfold readDigits?
  constructor
  · intro h
    rcases Option.ite_none_right_eq_some.1 h with ⟨⟨hne, hall⟩, hvalue⟩
    rw [← Option.some.inj hvalue]
    clear h hvalue
    -- the value of digits grows at their right end
    induction text using List.reverseRecOn with
    | nil =>
        exact absurd rfl hne
    | append_singleton text c ih =>
        rw [List.all_append, Bool.and_eq_true, List.all_cons, List.all_nil, Bool.and_true] at hall
        rw [Nat.ofDigitChars, List.foldl_append]
        by_cases htext : text = []
        · subst htext
          simpa using Numeral.digit hall.2
        · exact (ih htext hall.1).snoc hall.2
  · intro h
    have hcond : text ≠ [] ∧ text.all Char.isDigit = true :=
      ⟨h.ne_nil, List.all_eq_true.2 h.isDigit⟩
    rw [if_pos hcond]
    congr 1
    clear hcond
    induction h with
    | digit _ =>
        simp [Nat.ofDigitChars]
    | snoc _ _ ih =>
        rw [Nat.ofDigitChars, List.foldl_append]
        rw [Nat.ofDigitChars] at ih
        rw [ih]
        rfl

/-- Digits start with no sign. -/
theorem Numeral.ne_cons {text rest : List Char} {n : Nat} {c : Char} (h : Numeral text n)
    (hc : c.isDigit = false) : text ≠ c :: rest := by
  rintro rfl
  have hdigit := h.isDigit c List.mem_cons_self
  rw [hc] at hdigit
  cases hdigit

theorem readNatural?_eq_some_iff {text : List Char} {n : Nat} :
    readNatural? text = some n ↔ Count text n := by
  constructor
  · intro h
    unfold readNatural? at h
    split at h
    · exact .plus (readDigits?_eq_some_iff.1 h)
    · exact .bare (readDigits?_eq_some_iff.1 h)
  · intro h
    cases h with
    | bare h =>
        unfold readNatural?
        split
        · exact absurd rfl (h.ne_cons (by decide))
        · exact readDigits?_eq_some_iff.2 h
    | plus h =>
        exact readDigits?_eq_some_iff.2 h

theorem readInteger?_minus (digits : List Char) :
    readInteger? ('-' :: digits) = (readDigits? digits).map fun n : Nat => -(n : Int) := by
  cases hdigits : readDigits? digits <;> simp [readInteger?, hdigits]

theorem readInteger?_plus (digits : List Char) :
    readInteger? ('+' :: digits) = (readDigits? digits).map fun n : Nat => (n : Int) := by
  cases hdigits : readDigits? digits <;> simp [readInteger?, hdigits]

theorem readInteger?_bare {digits : List Char} (hminus : ∀ rest, digits ≠ '-' :: rest)
    (hplus : ∀ rest, digits ≠ '+' :: rest) :
    readInteger? digits = (readDigits? digits).map fun n : Nat => (n : Int) := by
  rw [readInteger?]
  · cases hdigits : readDigits? digits <;> simp
  · exact hminus
  · exact hplus

theorem readInteger?_eq_some_iff {text : List Char} {i : Int} :
    readInteger? text = some i ↔ Signed text i := by
  constructor
  · intro h
    by_cases hminus : ∃ rest, text = '-' :: rest
    · rcases hminus with ⟨rest, rfl⟩
      rw [readInteger?_minus] at h
      rcases Option.map_eq_some_iff.1 h with ⟨n, hn, rfl⟩
      exact .minus (readDigits?_eq_some_iff.1 hn)
    by_cases hplus : ∃ rest, text = '+' :: rest
    · rcases hplus with ⟨rest, rfl⟩
      rw [readInteger?_plus] at h
      rcases Option.map_eq_some_iff.1 h with ⟨n, hn, rfl⟩
      exact .plus (readDigits?_eq_some_iff.1 hn)
    · rw [readInteger?_bare (not_exists.1 hminus) (not_exists.1 hplus)] at h
      rcases Option.map_eq_some_iff.1 h with ⟨n, hn, rfl⟩
      exact .bare (readDigits?_eq_some_iff.1 hn)
  · intro h
    cases h with
    | bare h =>
        rw [readInteger?_bare (fun _ => h.ne_cons (by decide)) (fun _ => h.ne_cons (by decide))]
        exact Option.map_eq_some_iff.2 ⟨_, readDigits?_eq_some_iff.2 h, rfl⟩
    | plus h =>
        rw [readInteger?_plus]
        exact Option.map_eq_some_iff.2 ⟨_, readDigits?_eq_some_iff.2 h, rfl⟩
    | minus h =>
        rw [readInteger?_minus]
        exact Option.map_eq_some_iff.2 ⟨_, readDigits?_eq_some_iff.2 h, rfl⟩

/-- A word spells one integer at most. -/
theorem Signed.unique {text : List Char} {i j : Int} (hi : Signed text i) (hj : Signed text j) :
    i = j := by
  have hread := readInteger?_eq_some_iff.2 hi
  rw [readInteger?_eq_some_iff.2 hj] at hread
  exact (Option.some.inj hread).symm

theorem Count.unique {text : List Char} {m n : Nat} (hm : Count text m) (hn : Count text n) :
    m = n := by
  have hread := readNatural?_eq_some_iff.2 hm
  rw [readNatural?_eq_some_iff.2 hn] at hread
  exact (Option.some.inj hread).symm

theorem readUInt32?_eq_some_iff {text : List Char} {x : UInt32} :
    readUInt32? text = some x ↔ Count text x.toNat := by
  unfold readUInt32?
  rw [Option.bind_eq_some_iff]
  constructor
  · rintro ⟨n, hn, hx⟩
    rcases Option.ite_none_right_eq_some.1 hx with ⟨hlt, hx⟩
    rw [← Option.some.inj hx, UInt32.toNat_ofNat_of_lt' hlt]
    exact readNatural?_eq_some_iff.1 hn
  · intro h
    refine ⟨x.toNat, readNatural?_eq_some_iff.2 h, ?_⟩
    rw [if_pos x.toNat_lt_size, UInt32.ofNat_toNat]

theorem readUInt64?_eq_some_iff {text : List Char} {x : UInt64} :
    readUInt64? text = some x ↔ Count text x.toNat := by
  unfold readUInt64?
  rw [Option.bind_eq_some_iff]
  constructor
  · rintro ⟨n, hn, hx⟩
    rcases Option.ite_none_right_eq_some.1 hx with ⟨hlt, hx⟩
    rw [← Option.some.inj hx, UInt64.toNat_ofNat_of_lt' hlt]
    exact readNatural?_eq_some_iff.1 hn
  · intro h
    refine ⟨x.toNat, readNatural?_eq_some_iff.2 h, ?_⟩
    rw [if_pos x.toNat_lt_size, UInt64.ofNat_toNat]

theorem readInt32?_eq_some_iff {text : List Char} {x : Int32} :
    readInt32? text = some x ↔ Signed text x.toInt := by
  unfold readInt32?
  rw [Option.bind_eq_some_iff]
  constructor
  · rintro ⟨i, hi, hx⟩
    rcases Option.ite_none_right_eq_some.1 hx with ⟨⟨hmin, hmax⟩, hx⟩
    have hlow : -2 ^ 31 ≤ i := hmin
    have hhigh : i < 2 ^ 31 := Int.lt_of_le_sub_one hmax
    rw [← Option.some.inj hx, Int32.toInt_ofInt_of_le hlow hhigh]
    exact readInteger?_eq_some_iff.1 hi
  · intro h
    refine ⟨x.toInt, readInteger?_eq_some_iff.2 h, ?_⟩
    rw [if_pos ⟨x.minValue_le_toInt, x.toInt_le⟩, Int32.ofInt_toInt]

/-! ## Writing -/

theorem numeral_natural (n : Nat) : Numeral (natural n).toList n := by
  rw [← readDigits?_eq_some_iff, natural, String.toList_ofList]
  have hdigits : (Nat.toDigits 10 n).all Char.isDigit = true :=
    List.all_eq_true.2 fun c hc => Nat.isDigit_of_mem_toDigits (by decide) (by decide) hc
  rw [readDigits?, if_pos ⟨Nat.toDigits_ne_nil, hdigits⟩,
    Nat.ofDigitChars_toDigits (by decide) (by decide)]

theorem signed_integer (i : Int) : Signed (integer i).toList i := by
  have habs := numeral_natural i.natAbs
  unfold integer
  by_cases hneg : i < 0
  · rw [if_pos hneg, String.toList_append]
    have hvalue : -(i.natAbs : Int) = i := by omega
    have hminus := Signed.minus habs
    rw [hvalue] at hminus
    exact hminus
  · rw [if_neg hneg]
    have hvalue : (i.natAbs : Int) = i := by omega
    have hbare := Signed.bare habs
    rw [hvalue] at hbare
    exact hbare

/-! ## The characters of a spelling -/

/-- A digit or a sign. -/
def IsMark (c : Char) : Prop :=
  c.isDigit = true ∨ c = '+' ∨ c = '-'

theorem Signed.isMark {text : List Char} {i : Int} (h : Signed text i) :
    text ≠ [] ∧ ∀ c ∈ text, IsMark c := by
  cases h with
  | bare h =>
      exact ⟨h.ne_nil, fun c hc => Or.inl (h.isDigit c hc)⟩
  | plus h =>
      refine ⟨by simp, ?_⟩
      intro c hc
      rcases List.mem_cons.1 hc with rfl | hc
      · exact Or.inr (Or.inl rfl)
      · exact Or.inl (h.isDigit c hc)
  | minus h =>
      refine ⟨by simp, ?_⟩
      intro c hc
      rcases List.mem_cons.1 hc with rfl | hc
      · exact Or.inr (Or.inr rfl)
      · exact Or.inl (h.isDigit c hc)

theorem isBlank_of_isMark {c : Char} (h : IsMark c) : isBlank c = false := by
  rcases h with hdigit | rfl | rfl
  · have hrange : 48 ≤ c.toNat ∧ c.toNat ≤ 57 := by
      simpa [Char.isDigit, UInt32.le_iff_toNat_le] using hdigit
    simp only [isBlank, blankRanges, List.any_cons, List.any_nil, Bool.or_false, Bool.or_eq_false_iff,
      Bool.and_eq_false_iff, decide_eq_false_iff_not]
    omega
  · decide
  · decide

theorem Signed.solid {text : List Char} {i : Int} (h : Signed text i) : Solid text :=
  ⟨h.isMark.1, fun c hc => isBlank_of_isMark (h.isMark.2 c hc)⟩

end Decimal
end Text
end TwoCnf
