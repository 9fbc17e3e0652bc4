import TwoCnf.Fault
import TwoCnf.Listing.Reader
import TwoCnf.Proofs.Listing.Grammar

/-!
# Recognition — what can be read, and as what

* `readLines_eq_ok_iff`, `foldlM_takeLine_iff`, `literals_iff` — the reading of lines, of what matters in
  them, and of words, each told by the next;
* `parse_eq_ok_iff` — a text is read as what its lines come to;
* `parse_recognizes` — a text can be read exactly if it is grammatical, and then as its one
  transcription.
-/

namespace TwoCnf
namespace Listing

open Text

/-! ## What matters of the lines -/

theorem fieldsOf_trim (line : List Char) : fieldsOf (trim line) = words line := by
  rw [fieldsOf, ← words_eq_filter, words_trim]

theorem contentOf_cons (line : List Char) (lines : List (List Char)) :
    contentOf (line :: lines) =
      if (trim line).head? = some '%' then []
      else if trim line = [] ∨ (trim line).head? = some 'c' then contentOf lines
      else trim line :: contentOf lines := by
  unfold contentOf
  by_cases hstop : (trim line).head? = some '%'
  · simp [hstop]
  · by_cases hskip : trim line = [] ∨ (trim line).head? = some 'c'
    · rcases hskip with hnil | hc
      · simp [hnil]
      · simp [hc]
    · simp [hstop, not_or.1 hskip]

/-- An empty piece behind the last line does not matter. -/
theorem contentOf_append_nil (lines : List (List Char)) :
    contentOf (lines ++ [[]]) = contentOf lines := by
  induction lines with
  | nil =>
      rfl
  | cons line lines ih =>
      rw [List.cons_append, contentOf_cons, contentOf_cons, ih]

theorem content_eq (text : String) :
    content text = contentOf (lines (· == '\n') text.toList) := by
  unfold content
  rw [List.splitOn_eq_splitOnP]
  rcases splitOnP_eq_lines (· == '\n') text.toList with h | h
  · rw [h]
  · rw [h, contentOf_append_nil]

theorem fieldsOf_ne_nil {lines : List (List Char)} {line : List Char} (h : line ∈ contentOf lines) :
    fieldsOf line ≠ [] := by
  rcases List.mem_filter.1 h with ⟨hmem, hkeep⟩
  rcases List.mem_map.1 ((List.takeWhile_prefix _).subset hmem) with ⟨raw, _, rfl⟩
  rw [fieldsOf_trim, Ne, words_eq_nil_iff]
  have hne : trim raw ≠ [] ∧ (trim raw).head? ≠ some 'c' := by simpa using hkeep
  exact hne.1

/-! ## Reading lines -/

namespace Progress

/-- Reads a line that matters. -/
def takeLine (s : Progress) (line : List Char) : Except Malformed Progress :=
  if line.head? = some 'p' then s.declare (fieldsOf line) else s.literals (fieldsOf line)

/-- Nothing is left open, and the listing is what has been read. -/
def Yields (s : Progress) (l : Listing) : Prop :=
  s.pending = .none ∧
    l = ⟨s.preamble.map Preamble.vars, s.preamble.map Preamble.clauses, s.clauses.toList⟩

theorem finish_eq_ok_iff {s : Progress} {n : Nat} {l : Listing} :
    s.finish n = .ok l ↔ s.Yields l := by
  unfold finish Yields
  cases s.pending with
  | none =>
      simp [eq_comm]
  | one a =>
      simp
  | two a b =>
      simp

end Progress

/-- The role of a line is told by the character that it starts with. -/
theorem role_words (line : List Char) :
    role (words line) =
      if (trim line).head? = some '%' then .stop
      else if trim line = [] ∨ (trim line).head? = some 'c' then .skipped
      else if (trim line).head? = some 'p' then .preamble
      else .literals := by
  unfold role
  rw [← head?_trim]
  cases trim line with
  | nil =>
      rfl
  | cons c rest =>
      rw [List.head?_cons]
      split <;> simp_all

theorem exists_ok_yields {s : Progress} {l : Listing} :
    (∃ s', (Except.ok s : Except Malformed Progress) = .ok s' ∧ s'.Yields l) ↔ s.Yields l := by
  simp

/-- Of the lines only those that matter are read, up to the end. -/
theorem readLines_eq_ok_iff {n : Nat} {s : Progress} {ls : List (List Char)} {l : Listing} :
    readLines n s (ls.map some) = .ok l ↔
      ∃ s', (contentOf ls).foldlM Progress.takeLine s = .ok s' ∧ s'.Yields l := by
  induction ls generalizing n s with
  | nil =>
      exact Progress.finish_eq_ok_iff.trans exists_ok_yields.symm
  | cons line ls ih =>
      -- the role of a line and whether it matters hang on the same tests
      rw [List.map_cons, readLines, role_words, contentOf_cons]
      by_cases hstop : (trim line).head? = some '%'
      · rw [if_pos hstop, if_pos hstop]
        exact Progress.finish_eq_ok_iff.trans exists_ok_yields.symm
      rw [if_neg hstop, if_neg hstop]
      by_cases hskip : trim line = [] ∨ (trim line).head? = some 'c'
      · rw [if_pos hskip, if_pos hskip]
        exact ih
      rw [if_neg hskip, if_neg hskip, List.foldlM_cons, Progress.takeLine, fieldsOf_trim]
      by_cases hp : (trim line).head? = some 'p'
      · rw [if_pos hp, if_pos hp]
        cases s.declare (words line) with
        | error cause =>
            simp [bind, Except.bind]
        | ok t =>
            exact ih
      · rw [if_neg hp, if_neg hp]
        cases s.literals (words line) with
        | error cause =>
            simp [bind, Except.bind]
        | ok t =>
            exact ih

/-! ## Reading words -/

namespace Progress

theorem literal_eq_ok_iff {s s' : Progress} {word : List Char} :
    s.literal word = .ok s' ↔ ∃ x : Int32, Decimal.Signed word x.toInt ∧
      match s.pending with
      | .none => s' = { s with pending := .one x }
      | .one a => s' = { s with pending := .two a x }
      | .two a b => x = 0 ∧ s' = { s with clauses := s.clauses.push (a, b), pending := .none } := by
  unfold literal
  cases hread : Decimal.readInt32? word with
  | none =>
      have hnot : ∀ x : Int32, ¬ Decimal.Signed word x.toInt := by
        intro x hx
        rw [Decimal.readInt32?_eq_some_iff.2 hx] at hread
        cases hread
      simp [hnot]
  | some x =>
      have hx : ∀ y : Int32, Decimal.Signed word y.toInt ↔ y = x := by
        intro y
        rw [← Decimal.readInt32?_eq_some_iff, hread, Option.some_inj, eq_comm]
      simp only [hx, exists_eq_left]
      cases s.pending with
      | none =>
          simp [eq_comm]
      | one a =>
          simp [eq_comm]
      | two a b =>
          by_cases hzero : x = 0
          · simp [hzero, eq_comm]
          · simp [hzero]

/-- A literal makes an open clause longer by one or ends it. Once it is read no preamble is welcome. -/
theorem literal_advances {s s' : Progress} {word : List Char} (h : s.literal word = .ok s') :
    s'.started = true ∧ s'.pending.count = (s.pending.count + 1) % 3 := by
  rcases literal_eq_ok_iff.1 h with ⟨x, _, hcase⟩
  cases hpending : s.pending with
  | none =>
      rw [hpending] at hcase
      rw [hcase]
      exact ⟨by simp [started], rfl⟩
  | one a =>
      rw [hpending] at hcase
      rw [hcase]
      exact ⟨by simp [started], rfl⟩
  | two a b =>
      rw [hpending] at hcase
      rw [hcase.2]
      exact ⟨by simp [started], by simp [Open.count]⟩

/-- No preamble is welcome any more. -/
def Refuses (s : Progress) : Prop :=
  (s.preamble.isSome || s.started) = true

theorem refuses_of_literals {s s' : Progress} {found : List (List Char)}
    (h : s.literals found = .ok s') (hs : found ≠ [] ∨ s.Refuses) : s'.Refuses := by
  induction found generalizing s with
  | nil =>
      cases h
      exact hs.resolve_left (fun hne => hne rfl)
  | cons word found ih =>
      rcases bind_eq_ok.1 h with ⟨t, ht, hrest⟩
      apply ih hrest
      rw [Refuses, (literal_advances ht).1, Bool.or_true]
      exact Or.inr rfl

/-- Where no preamble is welcome, all lines are read as one row of words. -/
theorem foldlM_takeLine_of_refuses {s s' : Progress} {ls : List (List Char)} (hs : s.Refuses) :
    ls.foldlM takeLine s = .ok s' ↔
      (∀ line ∈ ls, line.head? ≠ some 'p') ∧ s.literals (ls.flatMap fieldsOf) = .ok s' := by
  induction ls generalizing s with
  | nil =>
      simp [literals]
  | cons line ls ih =>
      rw [List.foldlM_cons, List.flatMap_cons, takeLine, List.forall_mem_cons]
      by_cases hp : line.head? = some 'p'
      -- a second preamble is refused, whatever it says
      · have hrefused : s.declare (fieldsOf line) = .error .unexpectedPreamble := if_pos hs
        rw [if_pos hp, hrefused]
        simp [hp, bind, Except.bind]
      · rw [if_neg hp, literals, literals, List.foldlM_append]
        constructor
        · intro h
          rcases bind_eq_ok.1 h with ⟨t, ht, hrest⟩
          have hrest' := (ih (refuses_of_literals ht (Or.inr hs))).1 hrest
          exact ⟨⟨hp, hrest'.1⟩, bind_eq_ok.2 ⟨t, ht, hrest'.2⟩⟩
        · rintro ⟨⟨_, hlines⟩, h⟩
          rcases bind_eq_ok.1 h with ⟨t, ht, hrest⟩
          exact bind_eq_ok.2 ⟨t, ht, (ih (refuses_of_literals ht (Or.inr hs))).2 ⟨hlines, hrest⟩⟩

/-- An open clause has as many literals as are left over from triples. -/
theorem count_literals {s s' : Progress} {found : List (List Char)}
    (h : s.literals found = .ok s') :
    s'.pending.count = (s.pending.count + found.length) % 3 := by
  induction found generalizing s with
  | nil =>
      have heq : s = s' := Except.ok.inj h
      subst heq
      cases s.pending <;> rfl
  | cons word found ih =>
      rcases bind_eq_ok.1 h with ⟨t, ht, hrest⟩
      rw [ih hrest, (literal_advances ht).2, List.length_cons]
      omega

/-- Three words from the start of a clause are its halves and its `0`. -/
theorem literals_triple {p : Option Preamble} {clauses : Array (Int32 × Int32)} {s : Progress}
    {v w z : List Char} {rest : List (List Char)} :
    literals ⟨p, clauses, .none⟩ (v :: w :: z :: rest) = .ok s ↔
      ∃ a b : Int32, Decimal.Signed v a.toInt ∧ Decimal.Signed w b.toInt ∧ Decimal.Signed z 0 ∧
        literals ⟨p, clauses.push (a, b), .none⟩ rest = .ok s := by
  constructor
  · intro h
    rcases bind_eq_ok.1 h with ⟨t, ht, h⟩
    rcases bind_eq_ok.1 h with ⟨u, hu, h⟩
    rcases bind_eq_ok.1 h with ⟨x, hx, h⟩
    rcases literal_eq_ok_iff.1 ht with ⟨a, ha, rfl⟩
    rcases literal_eq_ok_iff.1 hu with ⟨b, hb, rfl⟩
    rcases literal_eq_ok_iff.1 hx with ⟨_, hz, rfl, rfl⟩
    exact ⟨a, b, ha, hb, hz, h⟩
  · rintro ⟨a, b, ha, hb, hz, h⟩
    have hfirst : literal ⟨p, clauses, .none⟩ v = .ok ⟨p, clauses, .one a⟩ :=
      literal_eq_ok_iff.2 ⟨a, ha, rfl⟩
    have hsecond : literal ⟨p, clauses, .one a⟩ w = .ok ⟨p, clauses, .two a b⟩ :=
      literal_eq_ok_iff.2 ⟨b, hb, rfl⟩
    have hthird : literal ⟨p, clauses, .two a b⟩ z = .ok ⟨p, clauses.push (a, b), .none⟩ :=
      literal_eq_ok_iff.2 ⟨0, hz, rfl, rfl⟩
    exact bind_eq_ok.2 ⟨_, hfirst, bind_eq_ok.2 ⟨_, hsecond, bind_eq_ok.2 ⟨_, hthird, h⟩⟩⟩

/-- Words from the start of a clause to the end of one are read if they come in triples. -/
theorem literals_iff (p : Option Preamble) :
    ∀ (found : List (List Char)) (clauses : Array (Int32 × Int32)) {s : Progress},
      (literals ⟨p, clauses, .none⟩ found = .ok s ∧ s.pending = .none) ↔
        ∃ pairs : List (Int32 × Int32), Triples found pairs ∧ s = ⟨p, clauses ++ pairs, .none⟩
  | [], clauses, s => by
      constructor
      · rintro ⟨h, _⟩
        cases h
        exact ⟨[], .nil, by simp⟩
      · rintro ⟨pairs, htriples, rfl⟩
        cases htriples
        exact ⟨by simp [literals, pure, Except.pure], rfl⟩
  -- one word and two words leave a clause open
  | [v], clauses, s => by
      constructor
      · rintro ⟨h, hpending⟩
        have hcount := count_literals h
        rw [hpending] at hcount
        cases hcount
      · rintro ⟨pairs, htriples, _⟩
        cases htriples
  | [v, w], clauses, s => by
      constructor
      · rintro ⟨h, hpending⟩
        have hcount := count_literals h
        rw [hpending] at hcount
        cases hcount
      · rintro ⟨pairs, htriples, _⟩
        cases htriples
  | v :: w :: z :: rest, clauses, s => by
      rw [literals_triple]
      constructor
      · rintro ⟨⟨a, b, ha, hb, hz, h⟩, hpending⟩
        rcases (literals_iff p rest _).1 ⟨h, hpending⟩ with ⟨pairs, htriples, rfl⟩
        exact ⟨(a, b) :: pairs, .cons ha hb hz htriples, by simp⟩
      · rintro ⟨pairs, htriples, rfl⟩
        cases htriples with
        | @cons _ _ _ _ a b pairs ha hb hz htriples =>
            have h := (literals_iff p rest (clauses.push (a, b))).2 ⟨pairs, htriples, rfl⟩
            have hpush : clauses ++ (a, b) :: pairs = clauses.push (a, b) ++ pairs := by simp
            rw [hpush]
            exact ⟨⟨a, b, ha, hb, hz, h.1⟩, rfl⟩

end Progress

theorem preamble_eq_ok_iff {found : List (List Char)} {declared : Preamble} :
    preamble found = .ok declared ↔ ∃ v c, found = [['p'], ['c', 'n', 'f'], v, c] ∧
      Decimal.Count v declared.vars.toNat ∧ Decimal.Count c declared.clauses.toNat := by
  constructor
  · intro h
    unfold preamble at h
    split at h
    · rename_i mark format v c
      split at h
      · cases h
      rename_i hmark
      split at h
      · cases h
      rename_i hformat
      split at h
      · cases h
      rename_i vars hvars
      split at h
      · cases h
      rename_i clauses hclauses
      cases h
      refine ⟨v, c, ?_, Decimal.readUInt32?_eq_some_iff.1 hvars,
        Decimal.readUInt64?_eq_some_iff.1 hclauses⟩
      rw [not_not.1 hmark, not_not.1 hformat]
    · cases h
  · rintro ⟨v, c, rfl, hv, hc⟩
    simp only [preamble, ne_eq, not_true_eq_false, if_false, Decimal.readUInt32?_eq_some_iff.2 hv,
      Decimal.readUInt64?_eq_some_iff.2 hc]

namespace Progress

theorem exists_literals_iff {p : Option Preamble} {found : List (List Char)} {l : Listing} :
    (∃ s, literals ⟨p, #[], .none⟩ found = .ok s ∧ s.Yields l) ↔
      ∃ pairs, Triples found pairs ∧
        l = ⟨p.map Preamble.vars, p.map Preamble.clauses, pairs⟩ := by
  constructor
  · rintro ⟨s, hs, hpending, rfl⟩
    rcases (literals_iff p found #[]).1 ⟨hs, hpending⟩ with ⟨pairs, htriples, rfl⟩
    exact ⟨pairs, htriples, by simp⟩
  · rintro ⟨pairs, htriples, rfl⟩
    have h := (literals_iff p found #[]).2 ⟨pairs, htriples, rfl⟩
    exact ⟨_, h.1, h.2, by simp⟩

/-- Lines with words in them that do not start with a preamble are read as one row of words. -/
theorem foldlM_takeLine_plain {s : Progress} {first : List Char} {rest : List (List Char)}
    (hne : fieldsOf first ≠ []) (hp : first.head? ≠ some 'p') :
    (first :: rest).foldlM takeLine .start = .ok s ↔
      (∀ line ∈ rest, line.head? ≠ some 'p') ∧
        literals .start ((first :: rest).flatMap fieldsOf) = .ok s := by
  rw [List.foldlM_cons, takeLine, if_neg hp, List.flatMap_cons, literals, literals,
    List.foldlM_append]
  constructor
  · intro h
    rcases bind_eq_ok.1 h with ⟨t, ht, hrest⟩
    rcases (foldlM_takeLine_of_refuses (refuses_of_literals ht (Or.inl hne))).1 hrest with ⟨hlines, hrest⟩
    exact ⟨hlines, bind_eq_ok.2 ⟨t, ht, hrest⟩⟩
  · rintro ⟨hlines, h⟩
    rcases bind_eq_ok.1 h with ⟨t, ht, hrest⟩
    have hrest' := (foldlM_takeLine_of_refuses (refuses_of_literals ht (Or.inl hne))).2 ⟨hlines, hrest⟩
    exact bind_eq_ok.2 ⟨t, ht, hrest'⟩

/-- Lines behind a preamble are read as one row of words. -/
theorem foldlM_takeLine_declared {s : Progress} {first : List Char} {rest : List (List Char)}
    (hp : first.head? = some 'p') :
    (first :: rest).foldlM takeLine .start = .ok s ↔
      ∃ declared, Listing.preamble (fieldsOf first) = .ok declared ∧
        (∀ line ∈ rest, line.head? ≠ some 'p') ∧
        literals ⟨some declared, #[], .none⟩ (rest.flatMap fieldsOf) = .ok s := by
  -- nothing has been read, so the preamble is welcome
  have hdeclare : declare .start (fieldsOf first) =
      (Listing.preamble (fieldsOf first)).map fun declared => ⟨some declared, #[], .none⟩ :=
    if_neg (by decide)
  rw [List.foldlM_cons, takeLine, if_pos hp, hdeclare]
  cases Listing.preamble (fieldsOf first) with
  | error cause =>
      simp [Except.map, bind, Except.bind]
  | ok declared =>
      have hrefuses : Refuses ⟨some declared, #[], .none⟩ := rfl
      simp only [Except.ok.injEq, exists_eq_left']
      exact foldlM_takeLine_of_refuses hrefuses

/-- What the reading gives is what the lines come to. -/
theorem foldlM_takeLine_iff {ls : List (List Char)} (hne : ∀ line ∈ ls, fieldsOf line ≠ [])
    {l : Listing} :
    (∃ s, ls.foldlM takeLine .start = .ok s ∧ s.Yields l) ↔ Described ls l := by
  constructor
  · rintro ⟨s, hs, hyields⟩
    cases ls with
    | nil =>
        have hliterals : literals ⟨none, #[], .none⟩ [] = .ok s := hs
        rcases exists_literals_iff.1 ⟨s, hliterals, hyields⟩ with ⟨pairs, htriples, rfl⟩
        exact .plain (by simp) htriples
    | cons first rest =>
        by_cases hp : first.head? = some 'p'
        · rcases (foldlM_takeLine_declared hp).1 hs with ⟨declared, hdeclared, hrest, hs⟩
          rcases exists_literals_iff.1 ⟨s, hs, hyields⟩ with ⟨pairs, htriples, rfl⟩
          exact .declared hp (preamble_eq_ok_iff.1 hdeclared) hrest htriples
        · rcases (foldlM_takeLine_plain (hne first List.mem_cons_self) hp).1 hs with ⟨hrest, hs⟩
          rcases exists_literals_iff.1 ⟨s, hs, hyields⟩ with ⟨pairs, htriples, rfl⟩
          exact .plain (List.forall_mem_cons.2 ⟨hp, hrest⟩) htriples
  · intro h
    cases h with
    | plain hlines htriples =>
        rcases (exists_literals_iff (p := none)).2 ⟨_, htriples, rfl⟩ with ⟨s, hs, hyields⟩
        cases ls with
        | nil =>
            exact ⟨s, hs, hyields⟩
        | cons first rest =>
            rcases List.forall_mem_cons.1 hlines with ⟨hp, hrest⟩
            have hfields := hne first List.mem_cons_self
            exact ⟨s, (foldlM_takeLine_plain hfields hp).2 ⟨hrest, hs⟩, hyields⟩
    | @declared first rest vars clauses pairs hp hfirst hrest htriples =>
        have hdeclared : Listing.preamble (fieldsOf first) = .ok ⟨vars, clauses⟩ :=
          preamble_eq_ok_iff.2 hfirst
        rcases exists_literals_iff.2 ⟨_, htriples, rfl⟩ with ⟨s, hs, hyields⟩
        exact ⟨s, (foldlM_takeLine_declared hp).2 ⟨⟨vars, clauses⟩, hdeclared, hrest, hs⟩, hyields⟩

end Progress

/-! ## Reading a text -/

theorem parse_eq_ok_iff {text : String} {l : Listing} :
    parse text = .ok l ↔ Described (content text) l := by
  rw [parse, readLines_eq_ok_iff, content_eq]
  exact Progress.foldlM_takeLine_iff fun _ => fieldsOf_ne_nil

/-- A text can be read exactly if it is grammatical, and what is read says what the text says. -/
theorem parse_recognizes (text : String) :
    ((∃ l, parse text = .ok l) ↔ Grammatical (content text)) ∧
      ∀ l, parse text = .ok l ↔ Grammatical (content text) ∧ Transcribes (content text) l := by
  simp only [parse_eq_ok_iff]
  exact ⟨exists_described_iff, fun _ => described_iff⟩

-- A clause may run over lines and comments, numbers may have signs and zeros in front, and nothing behind
-- a percent sign matters.
example : parse "c\np cnf +2 01\n1\nc 7\n -02 0\n% p\nq" = .ok ⟨some 2, some 1, [(1, -2)]⟩ := by
  rfl

end Listing
end TwoCnf
