import TwoCnf.Text.Blank

/-!
# Split — lines and words

* `lines` cuts a sequence after each end mark. A last stretch without an end mark is a line of its
  own when it is not empty, so every line has either an end mark or a character;
* `fields` cuts a sequence at each separator and keeps empty stretches;
* `words` lists the maximal stretches of characters that are not blank.
-/

namespace TwoCnf
namespace Text

/-! ## Lines -/

/-- Adds one element in front of the lines read so far from the right. -/
def consLine {α : Type} (isEnd : α → Bool) (x : α) (later : List (List α)) : List (List α) :=
  if isEnd x then [] :: later
  else
    match later with
    | [] => [[x]]
    | line :: rest => (x :: line) :: rest

/-- The lines of a sequence, without their end marks. -/
def lines {α : Type} (isEnd : α → Bool) (xs : List α) : List (List α) :=
  xs.foldr (consLine isEnd) []

@[simp] theorem lines_nil {α : Type} (isEnd : α → Bool) : lines isEnd [] = [] :=
  rfl

@[simp] theorem lines_cons {α : Type} (isEnd : α → Bool) (x : α) (xs : List α) :
    lines isEnd (x :: xs) = consLine isEnd x (lines isEnd xs) :=
  rfl

/-- The stretches between separators, of which there is always one more than separators. -/
def fields {α : Type} (isSeparator : α → Bool) (xs : List α) : List (List α) :=
  xs.foldr (consLine isSeparator) [[]]

/-! ## Words -/

/-- Puts a word in front of others, unless it is empty. -/
def consWord (word : List Char) (later : List (List Char)) : List (List Char) :=
  if word.isEmpty then later else word :: later

/-- The word that starts the text, empty if the text starts with a blank, and the words after it. -/
def splitFirst (text : List Char) : List Char × List (List Char) :=
  text.foldr
    (fun c (word, later) =>
      if isBlank c then ([], consWord word later) else (c :: word, later))
    ([], [])

/-- The words of a text, in order. -/
def words (text : List Char) : List (List Char) :=
  let (word, later) := splitFirst text
  consWord word later

end Text
end TwoCnf
