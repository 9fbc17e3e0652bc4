import TwoCnf.Listing.Basic
import TwoCnf.Proofs.Text.Numeral
import TwoCnf.Proofs.Text.Words

/-!
# Grammar — the texts that hold a listing

* `content` — the lines of a text that matter;
* `Grammatical` — what they have to be like: at most one preamble, in front, and then integers of which
  each third is `0`;
* `Transcribes` — a listing says what they say. There is one such listing at most
  (`Transcribes.unique`);
* `Triples`, `Described` — words and lines built up from the left, each with what it holds. This is how
  a reader meets them;
* `exists_described_iff`, `described_iff` — the lines that can be built up so are the grammatical ones,
  and what they hold is their transcription.
-/

namespace TwoCnf
namespace Listing

open Text

/-! ## The grammar -/

/-- The pieces of a line between blanks. -/
def fieldsOf (line : List Char) : List (List Char) :=
  (line.splitOnP isBlank).filter (· ≠ [])

/-- What matters of some lines: those in front of the first that starts with `%`, but for blank ones and
those that start with `c`, each without the blanks at its ends. -/
def contentOf (lines : List (List Char)) : List (List Char) :=
  ((lines.map trim).takeWhile fun line => line.head? ≠ some '%').filter
    fun line => line ≠ [] ∧ line.head? ≠ some 'c'

/-- What matters of a text. -/
def content (text : String) : List (List Char) :=
  contentOf (text.toList.splitOn '\n')

/-- The first line, if it starts with `p`. -/
def declaration : List (List Char) → Option (List Char)
  | [] => none
  | first :: _ => if first.head? = some 'p' then some first else none

/-- The lines behind a preamble, or all lines if there is none. -/
def clauseLines : List (List Char) → List (List Char)
  | [] => []
  | first :: rest => if first.head? = some 'p' then rest else first :: rest

/-- The words of the clauses, across lines. -/
def clauseWords (lines : List (List Char)) : List (List Char) :=
  (clauseLines lines).flatMap fieldsOf

/-- A line of four words that declares two counts. -/
def IsPreamble (line : List Char) (vars clauses : Nat) : Prop :=
  ∃ v c, fieldsOf line = [['p'], ['c', 'n', 'f'], v, c] ∧ Decimal.Count v vars ∧
    Decimal.Count c clauses

/-- Only the first line starts with `p`, and it declares counts that fit their widths. All other words are
integers of 32 bits, they make triples, and each triple ends with `0`. -/
structure Grammatical (lines : List (List Char)) : Prop where
  preamble_first : ∀ line ∈ lines.tail, line.head? ≠ some 'p'
  preamble : ∀ first, declaration lines = some first →
    ∃ vars clauses, IsPreamble first vars clauses ∧ vars < UInt32.size ∧ clauses < UInt64.size
  integers : ∀ word ∈ clauseWords lines, ∃ i, Decimal.Signed word i ∧
    Int32.minValue.toInt ≤ i ∧ i ≤ Int32.maxValue.toInt
  triples : 3 ∣ (clauseWords lines).length
  zeros : ∀ k word, (clauseWords lines)[3 * k + 2]? = some word → Decimal.Signed word 0

/-- The listing has the declared counts if there are any, and the first two integers of each triple. -/
structure Transcribes (lines : List (List Char)) (l : Listing) : Prop where
  undeclared : declaration lines = none → l.declaredVars = none ∧ l.declaredClauses = none
  declared : ∀ first, declaration lines = some first →
    ∃ vars clauses, IsPreamble first vars.toNat clauses.toNat ∧ l.declaredVars = some vars ∧
      l.declaredClauses = some clauses
  length : (clauseWords lines).length = 3 * l.clauses.length
  clauses : ∀ k a b, l.clauses[k]? = some (a, b) →
    ∃ v w, (clauseWords lines)[3 * k]? = some v ∧ (clauseWords lines)[3 * k + 1]? = some w ∧
      Decimal.Signed v a.toInt ∧ Decimal.Signed w b.toInt

/-! ## Triples -/

/-- Words in triples that spell two halves and a `0`, and the pairs of halves. -/
inductive Triples : List (List Char) → List (Int32 × Int32) → Prop where
  | nil : Triples [] []
  | cons {v w z : List Char} {rest : List (List Char)} {a b : Int32}
      {pairs : List (Int32 × Int32)} (ha : Decimal.Signed v a.toInt) (hb : Decimal.Signed w b.toInt)
      (hz : Decimal.Signed z 0) (hrest : Triples rest pairs) :
      Triples (v :: w :: z :: rest) ((a, b) :: pairs)

namespace Triples

variable {found : List (List Char)} {pairs : List (Int32 × Int32)}

theorem length (h : Triples found pairs) : found.length = 3 * pairs.length := by
  induction h with
  | nil =>
      rfl
  | cons _ _ _ _ ih =>
      simp only [List.length_cons, ih]
      omega

theorem integer (h : Triples found pairs) : ∀ word ∈ found, ∃ x : Int32, Decimal.Signed word x.toInt := by
  induction h with
  | nil =>
      simp
  | @cons _ _ _ _ a b _ ha hb hz _ ih =>
      simp only [List.forall_mem_cons]
      exact ⟨⟨a, ha⟩, ⟨b, hb⟩, ⟨0, hz⟩, ih⟩

theorem zero (h : Triples found pairs) :
    ∀ k word, found[3 * k + 2]? = some word → Decimal.Signed word 0 := by
  induction h with
  | nil =>
      simp
  | cons _ _ hz _ ih =>
      intro k word hword
      cases k with
      | zero =>
          cases hword
          exact hz
      | succ k =>
          exact ih k word hword

theorem half (h : Triples found pairs) :
    ∀ k a b, pairs[k]? = some (a, b) →
      ∃ v w, found[3 * k]? = some v ∧ found[3 * k + 1]? = some w ∧
        Decimal.Signed v a.toInt ∧ Decimal.Signed w b.toInt := by
  induction h with
  | nil =>
      simp
  | @cons v w _ _ _ _ _ ha hb _ _ ih =>
      intro k a b hk
      cases k with
      | zero =>
          cases hk
          exact ⟨v, w, rfl, rfl, ha, hb⟩
      | succ k =>
          exact ih k a b hk

end Triples

/-- Integers whose number is a multiple of three make triples if each third is `0`. -/
theorem exists_triples : ∀ {found : List (List Char)},
    (∀ word ∈ found, ∃ x : Int32, Decimal.Signed word x.toInt) → 3 ∣ found.length →
      (∀ k word, found[3 * k + 2]? = some word → Decimal.Signed word 0) →
      ∃ pairs, Triples found pairs
  | [], _, _, _ => ⟨[], .nil⟩
  | [_], _, hlength, _ => absurd hlength (show ¬ 3 ∣ 1 by decide)
  | [_, _], _, hlength, _ => absurd hlength (show ¬ 3 ∣ 2 by decide)
  | v :: w :: z :: rest, hintegers, hlength, hzeros => by
      simp only [List.forall_mem_cons] at hintegers
      rcases hintegers with ⟨⟨a, ha⟩, ⟨b, hb⟩, _, hrest⟩
      have hlength' : 3 ∣ rest.length := (Nat.dvd_add_left (Nat.dvd_refl 3)).1 hlength
      -- the thirds of what follows are the thirds of the whole, one triple later
      rcases exists_triples hrest hlength' (fun k => hzeros (k + 1)) with ⟨pairs, htriples⟩
      exact ⟨(a, b) :: pairs, .cons ha hb (hzeros 0 z rfl) htriples⟩

/-! ## With and without a preamble -/

/-- What lines that matter come to, by whether the first of them is a preamble. -/
inductive Described : List (List Char) → Listing → Prop where
  | plain {lines : List (List Char)} {pairs : List (Int32 × Int32)}
      (hlines : ∀ line ∈ lines, line.head? ≠ some 'p') (h : Triples (lines.flatMap fieldsOf) pairs) :
      Described lines ⟨none, none, pairs⟩
  | declared {first : List Char} {rest : List (List Char)} {vars : UInt32} {clauses : UInt64}
      {pairs : List (Int32 × Int32)} (hp : first.head? = some 'p')
      (hfirst : IsPreamble first vars.toNat clauses.toNat)
      (hrest : ∀ line ∈ rest, line.head? ≠ some 'p') (h : Triples (rest.flatMap fieldsOf) pairs) :
      Described (first :: rest) ⟨some vars, some clauses, pairs⟩

theorem declaration_eq_none {lines : List (List Char)} (h : ∀ line ∈ lines, line.head? ≠ some 'p') :
    declaration lines = none ∧ clauseLines lines = lines := by
  cases lines with
  | nil =>
      exact ⟨rfl, rfl⟩
  | cons first rest =>
      have hp := h first List.mem_cons_self
      exact ⟨if_neg hp, if_neg hp⟩

theorem declaration_cons {first : List Char} {rest : List (List Char)} (hp : first.head? = some 'p') :
    declaration (first :: rest) = some first ∧ clauseLines (first :: rest) = rest :=
  ⟨if_pos hp, if_pos hp⟩

/-- The numbers of 32 bits are those within the bounds. -/
theorem exists_int32_iff {word : List Char} :
    (∃ x : Int32, Decimal.Signed word x.toInt) ↔
      ∃ i, Decimal.Signed word i ∧ Int32.minValue.toInt ≤ i ∧ i ≤ Int32.maxValue.toInt := by
  constructor
  · rintro ⟨x, hx⟩
    exact ⟨x.toInt, hx, x.minValue_le_toInt, x.toInt_le⟩
  · rintro ⟨i, hi, hmin, hmax⟩
    have hvalue : (Int32.ofInt i).toInt = i :=
      Int32.toInt_ofInt_of_le hmin (Int.lt_of_le_sub_one hmax)
    exact ⟨Int32.ofInt i, hvalue.symm ▸ hi⟩

namespace Described

variable {lines : List (List Char)} {l : Listing}

theorem triples (h : Described lines l) : Triples (clauseWords lines) l.clauses := by
  cases h with
  | plain hlines htriples =>
      rw [clauseWords, (declaration_eq_none hlines).2]
      exact htriples
  | declared hp _ _ htriples =>
      rw [clauseWords, (declaration_cons hp).2]
      exact htriples

theorem grammatical (h : Described lines l) : Grammatical lines := by
  refine ⟨?_, ?_, fun word hword => exists_int32_iff.1 (h.triples.integer word hword),
    ⟨_, h.triples.length⟩, h.triples.zero⟩
  · cases h with
    | plain hlines _ =>
        exact fun line hline => hlines line (List.mem_of_mem_tail hline)
    | declared _ _ hrest _ =>
        exact hrest
  · cases h with
    | plain hlines _ =>
        simp [(declaration_eq_none hlines).1]
    | @declared _ _ vars clauses _ hp hfirst _ _ =>
        rw [(declaration_cons hp).1]
        rintro _ ⟨⟩
        exact ⟨vars.toNat, clauses.toNat, hfirst, vars.toNat_lt_size, clauses.toNat_lt_size⟩

theorem transcribes (h : Described lines l) : Transcribes lines l := by
  refine ⟨?_, ?_, h.triples.length, h.triples.half⟩
  · cases h with
    | plain _ _ =>
        exact fun _ => ⟨rfl, rfl⟩
    | declared hp _ _ _ =>
        simp [(declaration_cons hp).1]
  · cases h with
    | plain hlines _ =>
        simp [(declaration_eq_none hlines).1]
    | @declared _ _ vars clauses _ hp hfirst _ _ =>
        rw [(declaration_cons hp).1]
        rintro _ ⟨⟩
        exact ⟨vars, clauses, hfirst, rfl, rfl⟩

end Described

theorem Grammatical.exists_described {lines : List (List Char)} (h : Grammatical lines) :
    ∃ l, Described lines l := by
  have hintegers : ∀ word ∈ clauseWords lines, ∃ x : Int32, Decimal.Signed word x.toInt :=
    fun word hword => exists_int32_iff.2 (h.integers word hword)
  rcases exists_triples hintegers h.triples h.zeros with ⟨pairs, htriples⟩
  cases lines with
  | nil =>
      exact ⟨_, .plain (by simp) htriples⟩
  | cons first rest =>
      by_cases hp : first.head? = some 'p'
      · rcases @declaration_cons first rest hp with ⟨hdeclaration, hclauses⟩
        rw [clauseWords, hclauses] at htriples
        rcases h.preamble first hdeclaration with ⟨vars, clauses, hfirst, hvars, hcount⟩
        -- counts that fit their widths are the counts of numbers of these widths
        rw [← UInt32.toNat_ofNat_of_lt' hvars, ← UInt64.toNat_ofNat_of_lt' hcount] at hfirst
        exact ⟨_, .declared hp hfirst h.preamble_first htriples⟩
      · have hlines : ∀ line ∈ first :: rest, line.head? ≠ some 'p' :=
          List.forall_mem_cons.2 ⟨hp, h.preamble_first⟩
        rw [clauseWords, (declaration_eq_none hlines).2] at htriples
        exact ⟨_, .plain hlines htriples⟩

theorem exists_described_iff {lines : List (List Char)} :
    (∃ l, Described lines l) ↔ Grammatical lines :=
  ⟨fun ⟨_, h⟩ => h.grammatical, Grammatical.exists_described⟩

/-! ## One transcription -/

theorem IsPreamble.unique {line : List Char} {v v' c c' : Nat} (h : IsPreamble line v c)
    (h' : IsPreamble line v' c') : v = v' ∧ c = c' := by
  rcases h with ⟨vars, clauses, hline, hv, hc⟩
  rcases h' with ⟨vars', clauses', hline', hv', hc'⟩
  rw [hline] at hline'
  cases hline'
  exact ⟨hv.unique hv', hc.unique hc'⟩

namespace Transcribes

variable {lines : List (List Char)} {l l' : Listing}

theorem clauses_unique (h : Transcribes lines l) (h' : Transcribes lines l') :
    l.clauses = l'.clauses := by
  have hlength : l.clauses.length = l'.clauses.length := by
    have hle := h.length.symm.trans h'.length
    omega
  apply List.ext_getElem hlength
  intro k hk hk'
  -- both listings spell out the same two words at place `k`
  rcases h.clauses k _ _ (List.getElem?_eq_getElem hk) with ⟨v, w, hv, hw, ha, hb⟩
  rcases h'.clauses k _ _ (List.getElem?_eq_getElem hk') with ⟨v', w', hv', hw', ha', hb'⟩
  rw [hv] at hv'
  rw [hw] at hw'
  cases hv'
  cases hw'
  exact Prod.ext (Int32.toInt_inj.1 (ha.unique ha')) (Int32.toInt_inj.1 (hb.unique hb'))

theorem counts_unique (h : Transcribes lines l) (h' : Transcribes lines l') :
    l.declaredVars = l'.declaredVars ∧ l.declaredClauses = l'.declaredClauses := by
  cases hdeclaration : declaration lines with
  | none =>
      rcases h.undeclared hdeclaration with ⟨hv, hc⟩
      rcases h'.undeclared hdeclaration with ⟨hv', hc'⟩
      exact ⟨hv.trans hv'.symm, hc.trans hc'.symm⟩
  | some first =>
      rcases h.declared first hdeclaration with ⟨vars, clauses, hfirst, hv, hc⟩
      rcases h'.declared first hdeclaration with ⟨vars', clauses', hfirst', hv', hc'⟩
      rcases hfirst.unique hfirst' with ⟨hvars, hclauses⟩
      rw [hv, hv', hc, hc', UInt32.toNat_inj.1 hvars, UInt64.toNat_inj.1 hclauses]
      exact ⟨rfl, rfl⟩

theorem unique (h : Transcribes lines l) (h' : Transcribes lines l') : l = l' := by
  rcases counts_unique h h' with ⟨hvars, hcount⟩
  have hclauses := clauses_unique h h'
  cases l
  cases l'
  simp_all

end Transcribes

theorem described_iff {lines : List (List Char)} {l : Listing} :
    Described lines l ↔ Grammatical lines ∧ Transcribes lines l := by
  constructor
  · intro h
    exact ⟨h.grammatical, h.transcribes⟩
  · rintro ⟨hgrammatical, htranscribes⟩
    rcases hgrammatical.exists_described with ⟨l', h⟩
    rw [htranscribes.unique h.transcribes]
    exact h

end Listing
end TwoCnf
