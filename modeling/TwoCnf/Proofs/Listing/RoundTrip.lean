import Mathlib.Data.List.Flatten
import TwoCnf.Listing.Printer
import TwoCnf.Proofs.Listing.Recognition

/-!
# RoundTrip — what is written can be read

* `lines_render` — the lines of the canonical text, each a row of words set apart by single spaces;
* `content_render` — all of them matter;
* `parse_render` — the canonical text is read as the same clauses, with their counts declared;
* `render_counted` — so writing what was read from it gives the same text;
* `canonical_roundTrip` — reading undoes writing, and each text that can be read has a canonical form with
  the same clauses.
-/

namespace TwoCnf
namespace Listing

open Text

/-! ## The lines of the canonical text -/

/-- The words of the preamble line. -/
def preambleRow (l : Listing) : List (List Char) :=
  [['p'], ['c', 'n', 'f'], (Decimal.natural l.numVars.toNat).toList,
    (Decimal.natural l.clauses.length).toList]

/-- The words of the line of a clause. -/
def clauseRow (clause : Int32 × Int32) : List (List Char) :=
  [(Decimal.integer clause.1.toInt).toList, (Decimal.integer clause.2.toInt).toList, ['0']]

/-- The rows of the canonical text. -/
def rows (l : Listing) : List (List (List Char)) :=
  l.preambleRow :: l.clauses.map clauseRow

theorem solid_natural (n : Nat) : Solid (Decimal.natural n).toList :=
  (Decimal.Signed.bare (Decimal.numeral_natural n)).solid

theorem solid_preambleRow (l : Listing) : ∀ word ∈ l.preambleRow, Solid word := by
  simp only [preambleRow, List.forall_mem_cons]
  exact ⟨by simp [Solid, isBlank, blankRanges], by simp [Solid, isBlank, blankRanges],
    solid_natural _, solid_natural _, by simp⟩

theorem solid_clauseRow (clause : Int32 × Int32) : ∀ word ∈ clauseRow clause, Solid word := by
  simp only [clauseRow, List.forall_mem_cons]
  exact ⟨(Decimal.signed_integer _).solid, (Decimal.signed_integer _).solid,
    by simp [Solid, isBlank, blankRanges], by simp⟩

theorem solid_rows (l : Listing) : ∀ row ∈ l.rows, ∀ word ∈ row, Solid word := by
  rw [rows, List.forall_mem_cons]
  refine ⟨l.solid_preambleRow, ?_⟩
  intro row hrow
  rcases List.mem_map.1 hrow with ⟨clause, _, rfl⟩
  exact solid_clauseRow clause

theorem toList_render (l : Listing) :
    l.render.toList = (l.rows.map [' '].intercalate).flatMap (· ++ ['\n']) := by
  have hpreamble : l.preambleLine.toList = [' '].intercalate l.preambleRow ++ ['\n'] := by
    simp [preambleLine, preambleRow, List.intercalate, List.intersperse]
  have hclause : ∀ clause : Int32 × Int32,
      (clauseLine clause).toList = [' '].intercalate (clauseRow clause) ++ ['\n'] := by
    intro clause
    simp [clauseLine, clauseRow, List.intercalate, List.intersperse]
  simp only [render, rows, String.toList_append, String.toList_join, List.map_cons, List.map_map,
    List.flatMap_cons, List.flatMap_map, Function.comp_apply, hpreamble, hclause]

theorem lines_render (l : Listing) :
    lines (· == '\n') l.render.toList = l.rows.map [' '].intercalate := by
  rw [toList_render]
  apply lines_flatMap_end (· == '\n') (by decide)
  intro line hline c hc
  rcases List.mem_map.1 hline with ⟨row, hrow, rfl⟩
  rw [beq_eq_false_iff_ne]
  rintro rfl
  -- an end of a line is blank, and the only blank within a line is the space
  rcases mem_intercalate_solid (l.solid_rows row hrow) hc with hsolid | hspace
  · exact absurd hsolid (by decide)
  · exact absurd hspace (by decide)

theorem words_line (l : Listing) : ∀ row ∈ l.rows, words ([' '].intercalate row) = row := by
  intro row hrow
  exact words_intercalate_solid (by decide) (l.solid_rows row hrow)

/-! ## What matters of them -/

/-- Lines that start with neither `%` nor `c` matter. -/
theorem contentOf_eq_map {ls : List (List Char)}
    (h : ∀ line ∈ ls, ∃ c, (trim line).head? = some c ∧ c ≠ '%' ∧ c ≠ 'c') :
    contentOf ls = ls.map trim := by
  induction ls with
  | nil =>
      rfl
  | cons line ls ih =>
      rcases List.forall_mem_cons.1 h with ⟨⟨c, hc, hstop, hcomment⟩, hrest⟩
      have hne : trim line ≠ [] := by
        intro hnil
        rw [hnil] at hc
        cases hc
      rw [contentOf_cons, ih hrest, hc, if_neg (by simpa using hstop),
        if_neg (by simpa [hne] using hcomment), List.map_cons]

/-- A clause starts with a digit or a sign, so not with a letter or a percent sign. -/
theorem head_clauseRow (clause : Int32 × Int32) :
    ∃ c, (clauseRow clause).head?.bind List.head? = some c ∧ c ≠ '%' ∧ c ≠ 'c' ∧ c ≠ 'p' := by
  rcases (Decimal.signed_integer clause.1.toInt).isMark with ⟨hne, hmarks⟩
  rcases List.exists_cons_of_ne_nil hne with ⟨c, rest, hword⟩
  have hmark : Decimal.IsMark c := hmarks c (by rw [hword]; exact List.mem_cons_self)
  refine ⟨c, by simp [clauseRow, hword], ?_⟩
  rcases hmark with hdigit | rfl | rfl
  · refine ⟨?_, ?_, ?_⟩ <;> rintro rfl <;> exact absurd hdigit (by decide)
  · decide
  · decide

theorem content_render (l : Listing) :
    content l.render = (l.rows.map [' '].intercalate).map trim := by
  rw [content_eq, lines_render]
  apply contentOf_eq_map
  intro line hline
  rcases List.mem_map.1 hline with ⟨row, hrow, rfl⟩
  rw [head?_trim, l.words_line row hrow]
  rcases List.mem_cons.1 hrow with rfl | hrow
  · exact ⟨'p', rfl, by decide, by decide⟩
  · rcases List.mem_map.1 hrow with ⟨clause, _, rfl⟩
    rcases head_clauseRow clause with ⟨c, hc, hstop, hcomment, _⟩
    exact ⟨c, hc, hstop, hcomment⟩

/-! ## Reading what was written -/

theorem triples_clauseRows (clauses : List (Int32 × Int32)) :
    Triples (clauses.flatMap clauseRow) clauses := by
  induction clauses with
  | nil =>
      exact .nil
  | cons clause clauses ih =>
      exact .cons (Decimal.signed_integer _) (Decimal.signed_integer _)
        (.bare (.digit (by decide))) ih

/-- The listing with its counts declared. -/
def counted (l : Listing) : Listing :=
  ⟨some l.numVars, some (UInt64.ofNat l.clauses.length), l.clauses⟩

theorem parse_render (l : Listing) (hlen : l.clauses.length < UInt64.size) :
    parse l.render = .ok l.counted := by
  rw [parse_eq_ok_iff, content_render, rows, List.map_cons, List.map_cons]
  have hpreamble : words ([' '].intercalate l.preambleRow) = l.preambleRow :=
    l.words_line _ List.mem_cons_self
  have hclause : ∀ clause ∈ l.clauses, words ([' '].intercalate (clauseRow clause)) = clauseRow clause :=
    fun clause hclause =>
      l.words_line _ (List.mem_cons_of_mem _ (List.mem_map_of_mem hclause))
  apply Described.declared
  -- the preamble comes first and spells the two counts
  · rw [head?_trim, hpreamble]
    rfl
  · refine ⟨(Decimal.natural l.numVars.toNat).toList, (Decimal.natural l.clauses.length).toList, ?_,
      .bare (Decimal.numeral_natural _), ?_⟩
    · rw [fieldsOf_trim, hpreamble]
      rfl
    · rw [UInt64.toNat_ofNat_of_lt' hlen]
      exact .bare (Decimal.numeral_natural _)
  -- no clause is taken for a preamble
  · simp only [List.mem_map]
    rintro _ ⟨_, ⟨_, ⟨clause, hmem, rfl⟩, rfl⟩, rfl⟩
    rw [head?_trim, hclause clause hmem]
    rcases head_clauseRow clause with ⟨c, hc, _, _, hp⟩
    rw [hc]
    simpa using hp
  · have hwords : List.flatMap fieldsOf
        (((l.clauses.map clauseRow).map [' '].intercalate).map trim) = l.clauses.flatMap clauseRow := by
      simp only [List.flatMap_map, fieldsOf_trim]
      exact List.flatMap_congr hclause
    rw [hwords]
    exact triples_clauseRows l.clauses

/-! ## Writing what was read -/

theorem max_max_right (a b : UInt32) : max (max a b) b = max a b := by
  have hmax : ∀ x y : UInt32, max x y = if x ≤ y then y else x := fun _ _ => rfl
  by_cases h : a ≤ b
  · simp [hmax, h]
  · simp [hmax, h]

theorem numVars_counted (l : Listing) : l.counted.numVars = l.numVars :=
  max_max_right _ _

theorem render_counted (l : Listing) : l.counted.render = l.render := by
  rw [render, render, preambleLine, preambleLine, numVars_counted]
  rfl

/-- The words of the clauses are words of the text. -/
theorem clauseWords_sublist (text : String) :
    (clauseWords (content text)).Sublist (words text.toList) := by
  have hlines : (clauseLines (content text)).Sublist (content text) := by
    cases content text with
    | nil =>
        exact List.Sublist.refl []
    | cons first rest =>
        rw [clauseLines]
        split
        · exact List.sublist_cons_self first rest
        · exact List.Sublist.refl _
  have hcontent : (content text).Sublist ((text.toList.splitOn '\n').map trim) :=
    List.filter_sublist.trans (List.takeWhile_sublist _)
  have hwords : ((text.toList.splitOn '\n').map trim).flatMap fieldsOf = words text.toList := by
    simp only [List.flatMap_map, fieldsOf_trim]
    exact flatMap_words_splitOn (by decide) _
  rw [← hwords]
  exact (hlines.trans hcontent).flatMap fieldsOf

/-- A text has at least three characters for each clause. -/
theorem length_clauses_le {text : String} {l : Listing} (h : parse text = .ok l) :
    3 * l.clauses.length ≤ text.length := by
  rw [← (parse_eq_ok_iff.1 h).triples.length, ← String.length_toList]
  exact (clauseWords_sublist text).length_le.trans (length_words_le _)

/-- Reading undoes writing, up to the counts, which are then exact. So the canonical text is written again
once it has been read, and every text that can be read has a canonical form with the same clauses. The
bounds say that clauses and characters can be counted in 64 bits. -/
theorem canonical_roundTrip :
    (∀ l : Listing, l.clauses.length < UInt64.size →
      ∃ l', parse l.render = .ok l' ∧ l'.declaredVars = some l.numVars ∧
        l'.declaredClauses = some (UInt64.ofNat l.clauses.length) ∧ l'.clauses = l.clauses ∧
        l'.render = l.render) ∧
    ∀ (text : String) (l : Listing), text.length < UInt64.size → parse text = .ok l →
      ∃ l', parse l.render = .ok l' ∧ l'.clauses = l.clauses ∧ l'.render = l.render := by
  constructor
  · intro l hlen
    exact ⟨l.counted, l.parse_render hlen, rfl, rfl, rfl, l.render_counted⟩
  · intro text l htext hparse
    have hlen : l.clauses.length < UInt64.size := by
      have hle := length_clauses_le hparse
      omega
    exact ⟨l.counted, l.parse_render hlen, rfl, l.render_counted⟩

/-- The least half has the largest absolute value, and a half of `0` ends no clause. -/
theorem canonical_roundTrip_extremes :
    (∃ l', parse (render ⟨some 7, none, [(Int32.minValue, 0), (0, Int32.maxValue)]⟩) = .ok l' ∧
      l'.declaredVars = some 2147483648 ∧ l'.declaredClauses = some 2 ∧
      l'.clauses = [(Int32.minValue, 0), (0, Int32.maxValue)] ∧
      l'.render = render ⟨some 7, none, [(Int32.minValue, 0), (0, Int32.maxValue)]⟩) ∧
    parse "c two lines\n+1\n -02 0" = .ok ⟨none, none, [(1, -2)]⟩ ∧
    ∃ l', parse (render ⟨none, none, [(1, -2)]⟩) = .ok l' ∧ l'.clauses = [(1, -2)] ∧
      l'.render = render ⟨none, none, [(1, -2)]⟩ := by
  have hparse : parse "c two lines\n+1\n -02 0" = .ok ⟨none, none, [(1, -2)]⟩ := by rfl
  exact ⟨canonical_roundTrip.1 ⟨some 7, none, [(Int32.minValue, 0), (0, Int32.maxValue)]⟩ (by decide),
    hparse, canonical_roundTrip.2 "c two lines\n+1\n -02 0" _ (by decide) hparse⟩

end Listing
end TwoCnf
