import TwoCnf.Proofs.Listing.Viability

/-!
# Localization — where an error is noticed

* `linesOf` — the lines of some bytes, each without its end mark and without a carriage return in front of
  it. Nothing else of the bytes is read (`parseBytes_eq`);
* `frontLines`, `lastRead` — the lines in front of the first that starts with a percent sign, and the number
  of the line at which a reading ends that nothing breaks;
* `Unbroken` — nothing breaks the reading of these bytes;
* `RaisedBy` — the line by which an error is raised;
* `ends_or_breaks` — a reading ends at the last line to be read, or is broken by some line;
* `errors_localized` — an error is raised by the first line behind which nothing can be accepted any more,
  and an open clause is complained about exactly at the end of a reading that nothing breaks.
-/

namespace TwoCnf
namespace Listing

open Text

/-! ## Carriage returns -/

theorem isValidUTF8_return : (⟨#[13]⟩ : ByteArray).IsValidUTF8 := by
  decide +kernel

theorem isValidUTF8_of_append_return {bytes : ByteArray}
    (h : (bytes ++ ⟨#[13]⟩).IsValidUTF8) : bytes.IsValidUTF8 := by
  let text : String := ⟨bytes ++ ⟨#[13]⟩, h⟩
  have hsize : text.utf8ByteSize = bytes.size + 1 := ByteArray.size_append
  have hle : (⟨bytes.size⟩ : String.Pos.Raw) ≤ text.rawEndPos := by
    rw [String.Pos.Raw.le_iff]
    show bytes.size ≤ text.utf8ByteSize
    rw [hsize]
    exact Nat.le_succ _
  have hlast : text.toByteArray.extract bytes.size text.utf8ByteSize = ⟨#[13]⟩ := by
    rw [hsize]
    exact ByteArray.extract_append_eq_right rfl rfl
  -- what follows the place in front of the return is a text, so that place is between characters
  have hvalid : String.Pos.Raw.IsValid text ⟨bytes.size⟩ := by
    refine String.Pos.Raw.isValid_iff_isValidUTF8_extract_utf8ByteSize.2 ⟨hle, ?_⟩
    rw [hlast]
    exact isValidUTF8_return
  have hfront : text.toByteArray.extract 0 bytes.size = bytes :=
    ByteArray.extract_append_eq_left rfl
  rw [← hfront]
  exact (String.Pos.Raw.isValid_iff_isValidUTF8_extract_zero.1 hvalid).2

theorem decode_snoc_return (line : List UInt8) :
    decode (line ++ [13]) = (decode line).map (· ++ ['\r']) := by
  have hbytes : (⟨(line ++ [13]).toArray⟩ : ByteArray) = ⟨line.toArray⟩ ++ ⟨#[13]⟩ := by
    apply ByteArray.ext
    simp
  unfold decode
  rw [hbytes]
  by_cases h : (⟨line.toArray⟩ : ByteArray).IsValidUTF8
  · have happend := h.append isValidUTF8_return
    have htext : String.fromUTF8 (⟨line.toArray⟩ ++ ⟨#[13]⟩) happend =
        String.fromUTF8 ⟨line.toArray⟩ h ++ "\r" := by
      apply String.toByteArray_inj.1
      rw [String.toByteArray_append]
      rfl
    simp only [String.fromUTF8?, dif_pos h, dif_pos happend, Option.map_some, htext,
      String.toList_append]
    rfl
  · have hnot : ¬ (⟨line.toArray⟩ ++ ⟨#[13]⟩ : ByteArray).IsValidUTF8 :=
      fun happend => h (isValidUTF8_of_append_return happend)
    simp only [String.fromUTF8?, dif_neg h, dif_neg hnot, Option.map_none]

/-- A line without a carriage return at its end. -/
def dropReturn (line : List UInt8) : List UInt8 :=
  if line.getLast? = some 13 then line.dropLast else line

/-- A carriage return is blank, so it does not change the words of a line. -/
theorem words_dropReturn (line : List UInt8) :
    (decode (dropReturn line)).map words = (decode line).map words := by
  unfold dropReturn
  split
  · rename_i hlast
    have hline : line.dropLast ++ [13] = line := List.dropLast_append_getLast? 13 hlast
    conv => rhs; rw [← hline, decode_snoc_return]
    cases decode line.dropLast with
    | none =>
        rfl
    | some cs =>
        have hwords : words (cs ++ ['\r']) = words cs := by
          rw [words_append_blank (by decide), words_nil, List.append_nil]
        simp [hwords]
  · rfl

theorem meet_dropReturn (s : Progress) (line : List UInt8) : s.meet (dropReturn line) = s.meet line := by
  unfold Progress.meet
  rw [words_dropReturn]

/-! ## The lines of some bytes -/

/-- The lines of some bytes, each without its end mark and without a carriage return in front of it. -/
def linesOf (bytes : ByteArray) : List (List UInt8) :=
  (lines (· == 10) bytes.data.toList).map dropReturn

/-- The bytes of the first `k` lines, each with its end mark. -/
def firstLines (k : Nat) (bytes : ByteArray) : ByteArray :=
  ⟨(((lines (· == 10) bytes.data.toList).take k).flatMap (· ++ [10])).toArray⟩

theorem readLines_dropReturn (n : Nat) (s : Progress) (ls : List (List UInt8)) :
    readLines n s ((ls.map dropReturn).map decode) = readLines n s (ls.map decode) := by
  induction ls generalizing n s with
  | nil =>
      rfl
  | cons line ls ih =>
      rw [List.map_cons, readLines_cons, readLines_cons, meet_dropReturn]
      simp only [ih]

theorem parseBytes_eq (bytes : ByteArray) :
    parseBytes bytes = readLines 0 .start ((linesOf bytes).map decode) :=
  (readLines_dropReturn 0 .start _).symm

theorem linesOf_firstLines_append (k : Nat) (bytes more : ByteArray) :
    linesOf (firstLines k bytes ++ more) = (linesOf bytes).take k ++ linesOf more := by
  have hends : ∀ piece ∈ (lines (· == 10) bytes.data.toList).take k, ∀ y ∈ piece,
      (y == 10) = false :=
    fun piece hpiece => not_end_of_mem_lines (· == 10) (List.mem_of_mem_take hpiece)
  have hbytes : (firstLines k bytes ++ more).data.toList =
      ((lines (· == 10) bytes.data.toList).take k).flatMap (· ++ [10]) ++ more.data.toList := by
    simp [firstLines]
  unfold linesOf
  rw [hbytes, lines_flatMap_append (· == 10) rfl hends, List.map_append, List.map_take]

/-! ## Where a reading ends -/

/-- The lines in front of the first that starts with a percent sign. -/
def frontLines (bytes : ByteArray) : List (List UInt8) :=
  (linesOf bytes).takeWhile fun line => !isStop line

/-- The number of the line that starts with a percent sign, or else of the last line. -/
def lastRead (bytes : ByteArray) : Nat :=
  if (linesOf bytes).any isStop then (frontLines bytes).length + 1 else (linesOf bytes).length

/-- The front lines can be decoded, and what they say is viable: no line breaks the reading. -/
def Unbroken (bytes : ByteArray) (ls : List (List Char)) : Prop :=
  (frontLines bytes).map decode = ls.map some ∧ Viable (contentOf ls)

/-- The line by which an error is raised. An error in the format tells the line, unless it is about the
end. Bytes that are no text are noticed at the first line that cannot be decoded. -/
inductive RaisedBy (bytes : ByteArray) : Nat → ReadError → Prop where
  | malformed {n : Nat} {cause : Malformed} (hcause : ∀ k, cause ≠ .unterminated k) :
      RaisedBy bytes n (.malformed n cause)
  | notText {n : Nat} {line : List UInt8} (hline : (linesOf bytes)[n]? = some line)
      (hnone : decode line = none) (hbefore : ∀ earlier ∈ (linesOf bytes).take n, decode earlier ≠ none) :
      RaisedBy bytes (n + 1) .notText

/-- Behind lines that the reading gets over, line `n` breaks it with the error `e`. -/
inductive BreaksAt (ls : List (List UInt8)) (n : Nat) (e : ReadError) : Prop where
  | intro {before rest : List (List UInt8)} {line : List UInt8} {s : Progress}
      (hls : ls = before ++ line :: rest) (hn : n = before.length + 1)
      (hafter : Progress.start.after before = some s) (hline : (s.meet line).error? n = some e)

variable {bytes : ByteArray}

theorem frontLines_of_append {before rest : List (List UInt8)} {line : List UInt8}
    (hls : linesOf bytes = before ++ line :: rest) (hbefore : ∀ l ∈ before, isStop l = false)
    (hline : isStop line = true) :
    frontLines bytes = before ∧ lastRead bytes = before.length + 1 := by
  have hfront : frontLines bytes = before := by
    unfold frontLines
    rw [hls, List.takeWhile_append_of_pos (by simpa using hbefore), List.takeWhile_cons_of_neg (by simpa),
      List.append_nil]
  refine ⟨hfront, ?_⟩
  have hany : (linesOf bytes).any isStop = true := by
    rw [hls]
    simp [hline]
  rw [lastRead, if_pos hany, hfront]

theorem frontLines_of_all (hall : ∀ l ∈ linesOf bytes, isStop l = false) :
    frontLines bytes = linesOf bytes ∧ lastRead bytes = (linesOf bytes).length := by
  have hany : (linesOf bytes).any isStop = false := by simpa using hall
  refine ⟨?_, by rw [lastRead, hany]; rfl⟩
  unfold frontLines
  rw [List.takeWhile_eq_self_iff]
  simpa using hall

/-- A reading that gets over the front lines ends behind them. -/
theorem parseBytes_of_after {s : Progress} (h : Progress.start.after (frontLines bytes) = some s) :
    parseBytes bytes = s.finish (lastRead bytes) := by
  have hfront := fun line hline => (decode_of_after h line hline).2
  have hsplit : linesOf bytes =
      frontLines bytes ++ (linesOf bytes).dropWhile fun line => !isStop line :=
    List.takeWhile_append_dropWhile.symm
  rw [parseBytes_eq]
  cases hrest : (linesOf bytes).dropWhile fun line => !isStop line with
  | nil =>
      rw [hrest, List.append_nil] at hsplit
      have hall : ∀ l ∈ linesOf bytes, isStop l = false := by
        rw [hsplit]
        exact hfront
      rw [(frontLines_of_all hall).2, hsplit, ← List.append_nil (List.map _ _), ← List.map_nil,
        ← List.map_append, readLines_of_after h, Nat.zero_add]
      rfl
  | cons line rest =>
      have hline : isStop line = true := by
        have hhead := List.head?_dropWhile_not (fun line => !isStop line) (linesOf bytes)
        rw [hrest] at hhead
        simpa using hhead
      rw [hrest] at hsplit
      rw [(frontLines_of_append hsplit hfront hline).2]
      conv => lhs; rw [hsplit, readLines_of_after h, readLines_cons, meet_eq_stop_iff.2 hline]
      rw [Nat.zero_add]

/-- A reading ends behind the front lines, or it is broken by some line. -/
theorem ends_or_breaks (bytes : ByteArray) :
    (∃ s, Progress.start.after (frontLines bytes) = some s) ∨
      ∃ n e, BreaksAt (linesOf bytes) n e ∧ parseBytes bytes = .error e := by
  rw [parseBytes_eq]
  cases halts 0 .start (linesOf bytes) with
  | finished hafter _ =>
      have hall := fun line hline => (decode_of_after hafter line hline).2
      exact Or.inl ⟨_, by rw [(frontLines_of_all hall).1]; exact hafter⟩
  | stopped hls hafter hline _ =>
      have hbefore := fun line hline => (decode_of_after hafter line hline).2
      have hfront := frontLines_of_append hls hbefore (meet_eq_stop_iff.1 hline)
      exact Or.inl ⟨_, by rw [hfront.1]; exact hafter⟩
  | broken hls hafter hline hr =>
      rw [Nat.zero_add] at hline
      exact Or.inr ⟨_, _, .intro hls rfl hafter hline, hr⟩

/-- The end of a reading is complained about exactly if a clause is open. -/
theorem finish_eq_error_iff {s : Progress} {n : Nat} {e : ReadError} :
    s.finish n = .error e ↔
      s.pending.count ≠ 0 ∧ e = .malformed n (.unterminated s.pending.count) := by
  unfold Progress.finish
  cases s.pending with
  | none =>
      simp [Open.count]
  | one a =>
      simp [Open.count, eq_comm]
  | two a b =>
      simp [Open.count, eq_comm]

/-! ## A line that breaks the reading -/

theorem exists_of_take_eq {before rest : List (List UInt8)} {line : List UInt8}
    {ls ls' : List (List UInt8)} (hls : ls = before ++ line :: rest)
    (h : ls'.take (before.length + 1) = ls.take (before.length + 1)) :
    ∃ rest', ls' = before ++ line :: rest' := by
  have hfront : ls'.take (before.length + 1) = before ++ [line] := by
    rw [h, hls, List.take_length_add_append]
    rfl
  refine ⟨ls'.drop (before.length + 1), ?_⟩
  conv => lhs; rw [← List.take_append_drop (before.length + 1) ls', hfront]
  rw [List.append_assoc, List.singleton_append]

/-- Which error a line raises tells what the line is. -/
theorem error?_cases {effect : Effect} {n : Nat} {e : ReadError} (h : effect.error? n = some e) :
    (∃ cause, effect = .broken cause ∧ e = .malformed n cause) ∨
      effect = .notText ∧ e = .notText := by
  cases effect with
  | on s =>
      cases h
  | stop =>
      cases h
  | broken cause =>
      exact Or.inl ⟨cause, rfl, (Option.some.inj h).symm⟩
  | notText =>
      exact Or.inr ⟨rfl, (Option.some.inj h).symm⟩

namespace BreaksAt

variable {ls : List (List UInt8)} {n : Nat} {e : ReadError}

theorem bounds (h : BreaksAt ls n e) : 1 ≤ n ∧ n ≤ ls.length := by
  rcases h with ⟨hls, hn, _, _⟩
  rw [hn, hls, List.length_append, List.length_cons]
  omega

/-- A reading that is broken by a line is broken in the same way wherever it meets the same lines. -/
theorem same (h : BreaksAt ls n e) {other : ByteArray} (hother : (linesOf other).take n = ls.take n) :
    parseBytes other = .error e := by
  rcases h with ⟨hls, rfl, hafter, hline⟩
  rcases exists_of_take_eq hls hother with ⟨rest', hlines⟩
  rw [parseBytes_eq, hlines, readLines_of_after hafter, Nat.zero_add]
  exact readLines_of_error hline rest'

/-- The reading gets over all lines in front of the one that breaks it. -/
theorem exists_after (h : BreaksAt ls n e) : ∃ s, Progress.start.after (ls.take (n - 1)) = some s := by
  rcases h with @⟨before, rest, line, s, hls, hn, hafter, _⟩
  refine ⟨s, ?_⟩
  rw [hn, hls, Nat.add_sub_cancel, List.take_left]
  exact hafter

theorem raisedBy (h : BreaksAt (linesOf bytes) n e) : RaisedBy bytes n e := by
  rcases h with @⟨before, rest, line, s, hls, hn, hafter, hline⟩
  rcases error?_cases hline with ⟨cause, hcause, rfl⟩ | ⟨hnotText, rfl⟩
  · refine .malformed ?_
    rintro k rfl
    exact meet_ne_unterminated hcause
  · have hplace : (linesOf bytes)[before.length]? = some line := by
      rw [hls, List.getElem?_append_right (Nat.le_refl _), Nat.sub_self]
      rfl
    rw [hn]
    refine .notText hplace (meet_eq_notText_iff.1 hnotText) ?_
    rw [hls, List.take_left]
    exact fun earlier hearlier => (decode_of_after hafter earlier hearlier).1

end BreaksAt

namespace RaisedBy

variable {n : Nat} {e : ReadError}

theorem ne_unterminated (h : RaisedBy bytes n e) (m k : Nat) : e ≠ .malformed m (.unterminated k) := by
  cases h with
  | malformed hcause =>
      rintro ⟨⟩
      exact hcause k rfl
  | notText =>
      simp

/-- The first line that cannot be decoded is where it is. -/
theorem unique {m : Nat} (h : RaisedBy bytes n e) (h' : RaisedBy bytes m e) : n = m := by
  cases h with
  | malformed _ =>
      cases h' with
      | malformed _ =>
          rfl
  | @notText n line hline hnone hbefore =>
      cases h' with
      | @notText m line' hline' hnone' hbefore' =>
          -- neither can be among the lines in front of the other
          rcases Nat.lt_trichotomy n m with hlt | rfl | hgt
          · have hmem : line ∈ (linesOf bytes).take m := by
              rw [List.mem_iff_getElem?]
              exact ⟨n, by rw [List.getElem?_take_of_lt hlt]; exact hline⟩
            exact absurd hnone (hbefore' line hmem)
          · rfl
          · have hmem : line' ∈ (linesOf bytes).take n := by
              rw [List.mem_iff_getElem?]
              exact ⟨m, by rw [List.getElem?_take_of_lt hgt]; exact hline'⟩
            exact absurd hnone' (hbefore line' hmem)

end RaisedBy

/-! ## Completing what has been read -/

theorem exists_finish {s : Progress} (h : s.pending = .none) (n : Nat) : ∃ l, s.finish n = .ok l :=
  ⟨_, Progress.finish_eq_ok_iff.2 ⟨h, rfl⟩⟩

/-- One line of literals that ends the open clause completes a reading. -/
theorem exists_readLines_of_literals {s t : Progress} {line : List UInt8} {found : List (List Char)}
    (hwords : (decode line).map words = some found) (hrole : role found = .literals)
    (ht : s.literals found = .ok t) (hpending : t.pending = .none) (n : Nat) :
    ∃ l, readLines n s ([line].map decode) = .ok l := by
  have hmeet : s.meet line = .on t := by
    unfold Progress.meet
    simp only [hwords, hrole, ht]
    rfl
  rw [readLines_cons, hmeet]
  exact exists_finish hpending (n + 1)

/-- Zeros end any open clause. -/
theorem exists_completion (s : Progress) (n : Nat) :
    ∃ more l, readLines n s ((linesOf more).map decode) = .ok l := by
  have hzero : Decimal.readInt32? ['0'] = some 0 := by decide
  cases hpending : s.pending with
  | none =>
      exact ⟨⟨#[]⟩, exists_finish hpending n⟩
  | one a =>
      have hliterals : s.literals [['0'], ['0']] =
          .ok { s with clauses := s.clauses.push (a, 0), pending := .none } := by
        simp [Progress.literals, Progress.literal, hzero, hpending, bind, Except.bind, pure,
          Except.pure]
      have hwords : (decode [48, 32, 48]).map words = some [['0'], ['0']] := by decide +kernel
      exact ⟨⟨#[48, 32, 48]⟩, exists_readLines_of_literals hwords rfl hliterals rfl n⟩
  | two a b =>
      have hliterals : s.literals [['0']] =
          .ok { s with clauses := s.clauses.push (a, b), pending := .none } := by
        simp [Progress.literals, Progress.literal, hzero, hpending, bind, Except.bind, pure,
          Except.pure]
      have hwords : (decode [48]).map words = some [['0']] := by decide +kernel
      exact ⟨⟨#[48]⟩, exists_readLines_of_literals hwords rfl hliterals rfl n⟩

/-- The lines in front of the one that breaks a reading can be completed to an input that is accepted. -/
theorem BreaksAt.exists_completed {n : Nat} {e : ReadError} (h : BreaksAt (linesOf bytes) n e) :
    ∃ more l, parseBytes (firstLines (n - 1) bytes ++ more) = .ok l := by
  rcases h.exists_after with ⟨s, hs⟩
  rcases exists_completion s ((linesOf bytes).take (n - 1)).length with ⟨more, l, hmore⟩
  refine ⟨more, l, ?_⟩
  rw [parseBytes_eq, linesOf_firstLines_append, readLines_of_after hs, Nat.zero_add]
  exact hmore

/-! ## The end of a reading -/

/-- A reading gets over the front lines exactly if nothing breaks it, and the words that are then left over
from triples are open. -/
theorem exists_after_iff {P : Nat → Prop} :
    (∃ s, Progress.start.after (frontLines bytes) = some s ∧ P s.pending.count) ↔
      ∃ ls, Unbroken bytes ls ∧ P ((clauseWords (contentOf ls)).length % 3) := by
  have hfront : ∀ line ∈ frontLines bytes, isStop line = false := by
    intro line hline
    simpa using List.mem_takeWhile_imp hline
  have hfields : ∀ ls, ∀ line ∈ contentOf ls, fieldsOf line ≠ [] := fun _ _ => fieldsOf_ne_nil
  constructor
  · rintro ⟨s, hs, hP⟩
    rcases (after_iff hfront).1 hs with ⟨ls, hls, hfold⟩
    refine ⟨ls, ⟨hls, (Progress.exists_foldlM_takeLine_iff (hfields ls)).1 ⟨s, hfold⟩⟩, ?_⟩
    rw [← Progress.count_foldlM_takeLine (hfields ls) hfold]
    exact hP
  · rintro ⟨ls, ⟨hls, hviable⟩, hP⟩
    rcases (Progress.exists_foldlM_takeLine_iff (hfields ls)).2 hviable with ⟨s, hfold⟩
    refine ⟨s, (after_iff hfront).2 ⟨ls, hls, hfold⟩, ?_⟩
    rw [Progress.count_foldlM_takeLine (hfields ls) hfold]
    exact hP

/-- Nothing breaks a reading exactly if no line raises an error. -/
theorem exists_unbroken_iff :
    (∃ ls, Unbroken bytes ls) ↔ ∀ n e, RaisedBy bytes n e → parseBytes bytes ≠ .error e := by
  have hends : (∃ ls, Unbroken bytes ls) ↔ ∃ s, Progress.start.after (frontLines bytes) = some s := by
    simpa using (exists_after_iff (P := fun _ => True)).symm
  rw [hends]
  constructor
  · rintro ⟨s, hs⟩ n e hraised herror
    rw [parseBytes_of_after hs] at herror
    exact hraised.ne_unterminated _ _ (finish_eq_error_iff.1 herror).2
  · intro hnone
    rcases ends_or_breaks bytes with hs | ⟨n, e, hbreaks, herror⟩
    · exact hs
    · exact absurd herror (hnone n e hbreaks.raisedBy)

theorem unterminated_iff {m k : Nat} :
    parseBytes bytes = .error (.malformed m (.unterminated k)) ↔
      (∃ ls, Unbroken bytes ls ∧ (clauseWords (contentOf ls)).length % 3 = k) ∧ k ≠ 0 ∧
        m = lastRead bytes := by
  rw [← exists_after_iff (P := fun count => count = k)]
  constructor
  · intro herror
    rcases ends_or_breaks bytes with ⟨s, hs⟩ | ⟨n, e, hbreaks, hbroken⟩
    · rw [parseBytes_of_after hs] at herror
      rcases finish_eq_error_iff.1 herror with ⟨hcount, heq⟩
      cases heq
      exact ⟨⟨s, hs, rfl⟩, hcount, rfl⟩
    · rw [hbroken] at herror
      exact absurd (Except.error.inj herror) (hbreaks.raisedBy.ne_unterminated m k)
  · rintro ⟨⟨s, hs, rfl⟩, hcount, rfl⟩
    rw [parseBytes_of_after hs]
    exact finish_eq_error_iff.2 ⟨hcount, rfl⟩

/-! ## Behind a percent sign -/

theorem readLines_stop {line : List UInt8} (hline : isStop line = true)
    (before rest rest' : List (List UInt8)) (n : Nat) (s : Progress) :
    readLines n s ((before ++ line :: rest).map decode) =
      readLines n s ((before ++ line :: rest').map decode) := by
  induction before generalizing n s with
  | nil =>
      rw [List.nil_append, List.nil_append, readLines_cons, readLines_cons,
        meet_eq_stop_iff.2 hline]
  | cons first before ih =>
      rw [List.cons_append, List.cons_append, readLines_cons, readLines_cons]
      simp only [ih]

theorem parseBytes_of_stop {n : Nat} {line : List UInt8} (hn : (linesOf bytes)[n]? = some line)
    (hline : isStop line = true) {other : ByteArray}
    (hother : (linesOf other).take (n + 1) = (linesOf bytes).take (n + 1)) :
    parseBytes other = parseBytes bytes := by
  rcases List.getElem?_eq_some_iff.1 hn with ⟨hlt, rfl⟩
  have hlength : ((linesOf bytes).take n).length = n := List.length_take_of_le (Nat.le_of_lt hlt)
  have hsplit : linesOf bytes =
      (linesOf bytes).take n ++ (linesOf bytes)[n] :: (linesOf bytes).drop (n + 1) := by
    rw [← List.drop_eq_getElem_cons hlt, List.take_append_drop]
  rw [← hlength] at hother
  rcases exists_of_take_eq hsplit hother with ⟨rest', hlines⟩
  rw [parseBytes_eq, parseBytes_eq, hlines]
  conv => rhs; rw [hsplit]
  exact readLines_stop hline _ _ _ _ _

/-- Where errors are noticed. Every error but that about an open clause is raised by a line; then every
input with the same lines up to that one fails in the same way, while the lines in front of it can be
completed to an input that is accepted. An open clause is complained about exactly if no line raises an
error and the words of the clauses do not make triples; the complaint is about the last line that is read.
Nothing behind a line that starts with a percent sign matters. -/
theorem errors_localized (bytes : ByteArray) :
    (∀ e, parseBytes bytes = .error e →
      (∃ m k, e = .malformed m (.unterminated k)) ∨ ∃ n, RaisedBy bytes n e) ∧
    (∀ n e, parseBytes bytes = .error e → RaisedBy bytes n e →
      (1 ≤ n ∧ n ≤ (linesOf bytes).length) ∧
      (∀ other, (linesOf other).take n = (linesOf bytes).take n → parseBytes other = .error e) ∧
      ∃ more l, parseBytes (firstLines (n - 1) bytes ++ more) = .ok l) ∧
    ((∃ ls, Unbroken bytes ls) ↔ ∀ n e, RaisedBy bytes n e → parseBytes bytes ≠ .error e) ∧
    (∀ m k, parseBytes bytes = .error (.malformed m (.unterminated k)) ↔
      (∃ ls, Unbroken bytes ls ∧ (clauseWords (contentOf ls)).length % 3 = k) ∧ k ≠ 0 ∧
        m = lastRead bytes) ∧
    ∀ n line, (linesOf bytes)[n]? = some line → isStop line = true →
      ∀ other, (linesOf other).take (n + 1) = (linesOf bytes).take (n + 1) →
        parseBytes other = parseBytes bytes := by
  refine ⟨?_, ?_, exists_unbroken_iff, fun _ _ => unterminated_iff,
    fun _ _ hn hline _ hother => parseBytes_of_stop hn hline hother⟩
  · intro e herror
    rcases ends_or_breaks bytes with ⟨s, hs⟩ | ⟨n, e', hbreaks, herror'⟩
    · rw [parseBytes_of_after hs] at herror
      exact Or.inl ⟨_, _, (finish_eq_error_iff.1 herror).2⟩
    · rw [herror] at herror'
      cases herror'
      exact Or.inr ⟨n, hbreaks.raisedBy⟩
  · intro n e herror hraised
    rcases ends_or_breaks bytes with ⟨s, hs⟩ | ⟨n', e', hbreaks, herror'⟩
    · rw [parseBytes_of_after hs] at herror
      exact absurd (finish_eq_error_iff.1 herror).2 (hraised.ne_unterminated _ _)
    · rw [herror] at herror'
      cases herror'
      cases hraised.unique hbreaks.raisedBy
      exact ⟨hbreaks.bounds, fun other hother => hbreaks.same hother, hbreaks.exists_completed⟩

/-- Three literals over two lines break a reading at the second line; a percent sign ends one, and a clause
that is open then is complained about with the line of the sign. -/
theorem errors_localized_twoLines :
    (parseBytes ⟨#[49, 10, 50, 32, 51]⟩ = .error (.malformed 2 .longClause) ∧
      (∀ other, (linesOf other).take 2 = (linesOf ⟨#[49, 10, 50, 32, 51]⟩).take 2 →
        parseBytes other = .error (.malformed 2 .longClause)) ∧
      ∃ more l, parseBytes (firstLines 1 ⟨#[49, 10, 50, 32, 51]⟩ ++ more) = .ok l) ∧
    parseBytes ⟨#[49, 10, 37, 10, 255]⟩ = .error (.malformed 2 (.unterminated 1)) ∧
    ∀ other, (linesOf other).take 2 = (linesOf ⟨#[49, 10, 37, 10, 255]⟩).take 2 →
      parseBytes other = parseBytes ⟨#[49, 10, 37, 10, 255]⟩ := by
  have hlong : parseBytes ⟨#[49, 10, 50, 32, 51]⟩ = .error (.malformed 2 .longClause) := by
    decide +kernel
  have hraised : RaisedBy ⟨#[49, 10, 50, 32, 51]⟩ 2 (.malformed 2 .longClause) :=
    .malformed (by simp)
  have hbroken := (errors_localized ⟨#[49, 10, 50, 32, 51]⟩).2.1 2 _ hlong hraised
  have hopen : parseBytes ⟨#[49, 10, 37, 10, 255]⟩ = .error (.malformed 2 (.unterminated 1)) := by
    decide +kernel
  have hstopped := (errors_localized ⟨#[49, 10, 37, 10, 255]⟩).2.2.2.2 1 [37] (by decide +kernel)
    (by decide +kernel)
  exact ⟨⟨hlong, hbroken.2⟩, hopen, hstopped⟩

end Listing
end TwoCnf
