import Mathlib.Data.List.DropRight
import TwoCnf.Text.Split

/-!
# Words — lines and words as pieces between separators

* `words_eq_filter` — the words of a text are its pieces between blanks, without the empty ones;
* `words_append_blank`, `words_of_solid` — words are found on both sides of a blank, and a text without
  blanks is one word. All else about words follows from these two;
* `words_intercalate_solid` — words set apart by blanks are found again;
* `trim` — a text without the blanks at its ends. It has the same words (`words_trim`), and it starts as
  its first word does (`head?_trim`);
* `splitOnP_eq_lines` — lines are the pieces between end marks, but for an empty piece at the end;
* `lines_flatMap_append` — lines that each end with an end mark are found again, and no line has one within
  (`not_end_of_mem_lines`).
-/

namespace TwoCnf
namespace Text

/-! ## Words -/

theorem splitFirst_cons (c : Char) (text : List Char) :
    splitFirst (c :: text) =
      if isBlank c then ([], consWord (splitFirst text).1 (splitFirst text).2)
      else (c :: (splitFirst text).1, (splitFirst text).2) :=
  rfl

theorem words_eq_consWord (text : List Char) :
    words text = consWord (splitFirst text).1 (splitFirst text).2 :=
  rfl

theorem consWord_eq_filter (word : List Char) (pieces : List (List Char)) :
    consWord word (pieces.filter (· ≠ [])) = (word :: pieces).filter (· ≠ []) := by
  cases word with
  | nil =>
      rfl
  | cons c word =>
      rfl

/-- The first piece is the word that starts the text, and the others hold the words after it. -/
theorem exists_splitOnP (text : List Char) : ∃ pieces, text.splitOnP isBlank =
    (splitFirst text).1 :: pieces ∧ (splitFirst text).2 = pieces.filter (· ≠ []) := by
  induction text with
  | nil =>
      exact ⟨[], List.splitOnP_nil, rfl⟩
  | cons c text ih =>
      rcases ih with ⟨pieces, hsplit, hlater⟩
      rw [splitFirst_cons, List.splitOnP_cons_eq_if_modifyHead, hsplit]
      by_cases hc : isBlank c = true
      · rw [if_pos hc, if_pos hc]
        refine ⟨_, rfl, ?_⟩
        rw [hlater]
        exact consWord_eq_filter _ pieces
      · rw [if_neg hc, if_neg hc]
        exact ⟨pieces, rfl, hlater⟩

theorem words_eq_filter (text : List Char) :
    words text = (text.splitOnP isBlank).filter (· ≠ []) := by
  rcases exists_splitOnP text with ⟨pieces, hsplit, hlater⟩
  rw [words_eq_consWord, hsplit, hlater]
  exact consWord_eq_filter _ pieces

theorem words_append_blank {c : Char} (hc : isBlank c = true) (before after : List Char) :
    words (before ++ c :: after) = words before ++ words after := by
  simp only [words_eq_filter, List.splitOnP_append_cons before after hc, List.filter_append]

/-- Some characters, none of them blank. -/
def Solid (word : List Char) : Prop :=
  word ≠ [] ∧ ∀ c ∈ word, isBlank c = false

theorem words_of_solid {word : List Char} (h : Solid word) : words word = [word] := by
  rw [words_eq_filter, List.splitOnP_eq_singleton h.2]
  simp [h.1]

@[simp] theorem words_nil : words [] = [] :=
  rfl

theorem words_cons_blank {c : Char} (hc : isBlank c = true) (text : List Char) :
    words (c :: text) = words text :=
  words_append_blank hc [] text

/-- A text that starts with no blank starts with its first word. -/
theorem words_cons_solid {c : Char} (hc : isBlank c = false) (text : List Char) :
    words (c :: text) = (c :: (splitFirst text).1) :: (splitFirst text).2 := by
  rw [words_eq_consWord, splitFirst_cons, hc]
  rfl

/-- There are no more words than characters. -/
theorem length_words_le (text : List Char) : (words text).length ≤ text.length := by
  induction text with
  | nil =>
      exact Nat.le_refl 0
  | cons c text ih =>
      cases hc : isBlank c with
      | true =>
          rw [words_cons_blank hc]
          exact Nat.le_succ_of_le ih
      | false =>
          have hlater : (splitFirst text).2.length ≤ (words text).length := by
            rw [words_eq_consWord, consWord]
            split
            · exact Nat.le_refl _
            · exact Nat.le_succ _
          rw [words_cons_solid hc]
          exact Nat.succ_le_succ (hlater.trans ih)

theorem words_intercalate {c : Char} (hc : isBlank c = true) (pieces : List (List Char)) :
    words ([c].intercalate pieces) = pieces.flatMap words := by
  induction pieces with
  | nil =>
      rfl
  | cons piece pieces ih =>
      cases pieces with
      | nil =>
          simp
      | cons next pieces =>
          rw [List.intercalate_cons_cons, List.append_assoc, List.singleton_append,
            words_append_blank hc, ih]
          rfl

/-- Words set apart by blanks are found again. -/
theorem words_intercalate_solid {c : Char} (hc : isBlank c = true) {row : List (List Char)}
    (hrow : ∀ word ∈ row, Solid word) : words ([c].intercalate row) = row := by
  rw [words_intercalate hc]
  induction row with
  | nil =>
      rfl
  | cons word row ih =>
      rcases List.forall_mem_cons.1 hrow with ⟨hword, hrest⟩
      rw [List.flatMap_cons, words_of_solid hword, ih hrest, List.singleton_append]

/-- No other blank stands between words than the one that sets them apart. -/
theorem mem_intercalate_solid {c d : Char} {row : List (List Char)} (hrow : ∀ word ∈ row, Solid word)
    (h : d ∈ [c].intercalate row) : isBlank d = false ∨ d = c := by
  induction row with
  | nil =>
      simp at h
  | cons word row ih =>
      rcases List.forall_mem_cons.1 hrow with ⟨hword, hrest⟩
      cases row with
      | nil =>
          rw [List.intercalate_singleton] at h
          exact Or.inl (hword.2 d h)
      | cons next row =>
          rw [List.intercalate_cons_cons, List.append_assoc, List.singleton_append, List.mem_append,
            List.mem_cons] at h
          rcases h with h | h | h
          · exact Or.inl (hword.2 d h)
          · exact Or.inr h
          · exact ih hrest h

/-- Words are found on both sides of each end of a line. -/
theorem flatMap_words_splitOn {c : Char} (hc : isBlank c = true) (text : List Char) :
    (text.splitOn c).flatMap words = words text := by
  rw [← words_intercalate hc, List.intercalate_splitOn]

/-! ## Blanks at the ends -/

/-- A text without the blanks at its ends. -/
def trim (text : List Char) : List Char :=
  (text.dropWhile isBlank).rdropWhile isBlank

theorem words_dropWhile (text : List Char) : words (text.dropWhile isBlank) = words text := by
  induction text with
  | nil =>
      rfl
  | cons c text ih =>
      by_cases hc : isBlank c = true
      · rw [List.dropWhile_cons_of_pos hc, ih, words_cons_blank hc]
      · rw [List.dropWhile_cons_of_neg hc]

theorem words_rdropWhile (text : List Char) : words (text.rdropWhile isBlank) = words text := by
  induction text using List.reverseRecOn with
  | nil =>
      rfl
  | append_singleton text c ih =>
      by_cases hc : isBlank c = true
      · rw [List.rdropWhile_concat_pos _ _ _ hc, ih, words_append_blank hc, words_nil,
          List.append_nil]
      · rw [List.rdropWhile_concat_neg _ _ _ hc]

theorem words_trim (text : List Char) : words (trim text) = words text := by
  rw [trim, words_rdropWhile, words_dropWhile]

/-- What is left of a text starts as its first word does. -/
theorem head?_trim (text : List Char) :
    (trim text).head? = (words text).head?.bind List.head? := by
  rw [← words_dropWhile, trim]
  cases hrest : text.dropWhile isBlank with
  | nil =>
      rfl
  | cons c rest =>
      have hc : isBlank c = false := by
        have hhead := List.head?_dropWhile_not isBlank text
        rw [hrest] at hhead
        simpa using hhead
      rw [words_cons_solid hc]
      -- the character at the front is not blank, so it is not dropped from behind either
      have hne : (c :: rest).rdropWhile isBlank ≠ [] := by
        intro hnil
        have hblank := (List.rdropWhile_eq_nil_iff).1 hnil c List.mem_cons_self
        rw [hc] at hblank
        cases hblank
      rcases List.exists_cons_of_ne_nil hne with ⟨x, xs, hx⟩
      rcases List.rdropWhile_prefix isBlank (c :: rest) with ⟨tail, htail⟩
      rw [hx, List.cons_append] at htail
      rw [hx, (List.cons.inj htail).1]
      rfl

theorem words_eq_nil_iff (text : List Char) : words text = [] ↔ trim text = [] := by
  rw [← List.head?_eq_none_iff, ← List.head?_eq_none_iff, head?_trim]
  cases hwords : words text with
  | nil =>
      simp
  | cons word rest =>
      have hmem : word ∈ words text := by
        rw [hwords]
        exact List.mem_cons_self
      rw [words_eq_filter, List.mem_filter] at hmem
      have hne : word ≠ [] := by simpa using hmem.2
      simpa using hne

/-! ## Lines -/

section Lines

variable {α : Type} (isEnd : α → Bool)

/-- The pieces between end marks are the lines and, unless the last one has no end mark, an empty piece
behind them. -/
theorem splitOnP_eq_lines (xs : List α) :
    xs.splitOnP isEnd = lines isEnd xs ∨ xs.splitOnP isEnd = lines isEnd xs ++ [[]] := by
  induction xs with
  | nil =>
      exact Or.inr List.splitOnP_nil
  | cons x xs ih =>
      rw [List.splitOnP_cons_eq_if_modifyHead, lines_cons]
      unfold consLine
      by_cases hx : isEnd x = true
      · rw [if_pos hx, if_pos hx]
        rcases ih with h | h
        · exact Or.inl (by rw [h])
        · exact Or.inr (by rw [h, List.cons_append])
      · rw [if_neg hx, if_neg hx]
        cases hlines : lines isEnd xs with
        | nil =>
            -- there is always a piece, so the one that is there is the empty one behind
            rw [hlines] at ih
            rcases ih with h | h
            · exact absurd h (List.splitOnP_ne_nil isEnd xs)
            · exact Or.inl (by rw [h]; rfl)
        | cons line rest =>
            rw [hlines] at ih
            rcases ih with h | h
            · exact Or.inl (by rw [h]; rfl)
            · exact Or.inr (by rw [h]; rfl)

/-- A line ends at the first end mark. -/
theorem lines_append_end {line : List α} {x : α} (hline : ∀ y ∈ line, isEnd y = false)
    (hx : isEnd x = true) (rest : List α) :
    lines isEnd (line ++ x :: rest) = line :: lines isEnd rest := by
  induction line with
  | nil =>
      rw [List.nil_append, lines_cons]
      exact if_pos hx
  | cons y line ih =>
      have hy : isEnd y = false := hline y List.mem_cons_self
      have htail := ih fun z hz => hline z (List.mem_cons_of_mem y hz)
      rw [List.cons_append, lines_cons, htail]
      exact if_neg (by simp [hy])

/-- Lines that each end with an end mark are found again, in front of those of what follows. -/
theorem lines_flatMap_append {x : α} (hx : isEnd x = true) {pieces : List (List α)}
    (hpieces : ∀ piece ∈ pieces, ∀ y ∈ piece, isEnd y = false) (rest : List α) :
    lines isEnd (pieces.flatMap (· ++ [x]) ++ rest) = pieces ++ lines isEnd rest := by
  induction pieces with
  | nil =>
      rfl
  | cons piece pieces ih =>
      rcases List.forall_mem_cons.1 hpieces with ⟨hpiece, hrest⟩
      rw [List.flatMap_cons, List.append_assoc, List.append_assoc, List.singleton_append,
        lines_append_end isEnd hpiece hx, ih hrest, List.cons_append]

theorem lines_flatMap_end {x : α} (hx : isEnd x = true) {pieces : List (List α)}
    (hpieces : ∀ piece ∈ pieces, ∀ y ∈ piece, isEnd y = false) :
    lines isEnd (pieces.flatMap (· ++ [x])) = pieces := by
  simpa using lines_flatMap_append isEnd hx hpieces []

/-- There is no end mark within a line. -/
theorem not_end_of_mem_lines {xs line : List α} (hline : line ∈ lines isEnd xs) :
    ∀ y ∈ line, isEnd y = false := by
  induction xs generalizing line with
  | nil =>
      simp at hline
  | cons x xs ih =>
      rw [lines_cons] at hline
      unfold consLine at hline
      cases hx : isEnd x with
      | true =>
          rw [hx, if_pos rfl] at hline
          rcases List.mem_cons.1 hline with rfl | hlater
          · simp
          · exact ih hlater
      | false =>
          rw [hx, if_neg Bool.false_ne_true] at hline
          cases hlines : lines isEnd xs with
          | nil =>
              rw [hlines] at hline
              obtain rfl : line = [x] := List.mem_singleton.1 hline
              simpa using hx
          | cons first rest =>
              rw [hlines] at hline ih
              rcases List.mem_cons.1 hline with rfl | hlater
              · exact List.forall_mem_cons.2 ⟨hx, ih List.mem_cons_self⟩
              · exact ih (List.mem_cons_of_mem first hlater)

end Lines

end Text
end TwoCnf
