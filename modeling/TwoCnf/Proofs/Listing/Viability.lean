import TwoCnf.Proofs.Listing.Recognition

/-!
# Viability — how far a reading gets

* `Progress.meet` — what the next line does to a reading: the reading goes on, or it stops there, or the
  line breaks it;
* `Progress.after` — what has been read after some lines, if the reading gets over all of them;
* `Halts` — the three ways in which a reading ends, each with its answer. There are no others (`halts`);
* `Viable` — the lines in which nothing is wrong but that a clause may be left open at the end;
* `after_iff`, `exists_foldlM_takeLine_iff` — a reading gets over some lines exactly if they are viable, and
  then the words that are left over from triples are those of the open clause.
-/

namespace TwoCnf
namespace Listing

open Text

/-! ## One line -/

/-- What a line does to a reading. -/
inductive Effect where
  | on (s : Progress)
  | stop
  | broken (cause : Malformed)
  | notText

/-- The error that line `n` raises if it breaks the reading. -/
def Effect.error? (n : Nat) : Effect → Option ReadError
  | .on _ => none
  | .stop => none
  | .broken cause => some (.malformed n cause)
  | .notText => some .notText

/-- A line whose words are read goes on, or breaks the reading. -/
def Effect.ofReading : Except Malformed Progress → Effect
  | .ok s => .on s
  | .error cause => .broken cause

/-- What the next line does to a reading. Only its words matter. -/
def Progress.meet (s : Progress) (line : List UInt8) : Effect :=
  match (decode line).map words with
  | none => .notText
  | some found =>
      match role found with
      | .skipped => .on s
      | .stop => .stop
      | .preamble => .ofReading (s.declare found)
      | .literals => .ofReading (s.literals found)

theorem readLines_cons (n : Nat) (s : Progress) (line : List UInt8) (rest : List (List UInt8)) :
    readLines n s ((line :: rest).map decode) =
      match s.meet line with
      | .on s' => readLines (n + 1) s' (rest.map decode)
      | .stop => s.finish (n + 1)
      | .broken cause => .error (.malformed (n + 1) cause)
      | .notText => .error .notText := by
  rw [List.map_cons]
  unfold Progress.meet
  cases decode line with
  | none =>
      rfl
  | some cs =>
      simp only [readLines, Option.map_some]
      cases role (words cs) with
      | skipped =>
          rfl
      | stop =>
          rfl
      | preamble =>
          cases s.declare (words cs) <;> rfl
      | literals =>
          cases s.literals (words cs) <;> rfl

theorem readLines_of_error {n : Nat} {s : Progress} {line : List UInt8} {e : ReadError}
    (h : (s.meet line).error? (n + 1) = some e) (rest : List (List UInt8)) :
    readLines n s ((line :: rest).map decode) = .error e := by
  rw [readLines_cons]
  cases hline : s.meet line with
  | on t =>
      rw [hline] at h
      cases h
  | stop =>
      rw [hline] at h
      cases h
  | broken cause =>
      rw [hline] at h
      exact congrArg _ (Option.some.inj h)
  | notText =>
      rw [hline] at h
      exact congrArg _ (Option.some.inj h)

/-- A line starts with a percent sign. -/
def isStop (line : List UInt8) : Bool :=
  (decode line).any fun cs => (trim cs).head? == some '%'

theorem meet_of_some {s : Progress} {line : List UInt8} {cs : List Char} (h : decode line = some cs) :
    s.meet line =
      if (trim cs).head? = some '%' then .stop
      else if trim cs = [] ∨ (trim cs).head? = some 'c' then .on s
      else .ofReading (s.takeLine (trim cs)) := by
  unfold Progress.meet Progress.takeLine
  simp only [h, Option.map_some, role_words, fieldsOf_trim]
  by_cases hstop : (trim cs).head? = some '%'
  · simp [hstop]
  by_cases hskip : trim cs = [] ∨ (trim cs).head? = some 'c'
  · simp only [if_neg hstop, if_pos hskip]
  by_cases hp : (trim cs).head? = some 'p'
  · simp only [if_neg hstop, if_neg hskip, if_pos hp]
  · simp only [if_neg hstop, if_neg hskip, if_neg hp]

theorem meet_of_none {s : Progress} {line : List UInt8} (h : decode line = none) :
    s.meet line = .notText := by
  unfold Progress.meet
  rw [h]
  rfl

theorem isStop_of_some {line : List UInt8} {cs : List Char} (h : decode line = some cs) :
    isStop line = true ↔ (trim cs).head? = some '%' := by
  simp [isStop, h]

theorem meet_eq_stop_iff {s : Progress} {line : List UInt8} :
    s.meet line = .stop ↔ isStop line = true := by
  cases h : decode line with
  | none =>
      rw [meet_of_none h]
      simp [isStop, h]
  | some cs =>
      rw [isStop_of_some h, meet_of_some h]
      by_cases hstop : (trim cs).head? = some '%'
      · simp [hstop]
      · rw [if_neg hstop]
        simp only [hstop, iff_false]
        split
        · simp
        · cases s.takeLine (trim cs) <;> simp [Effect.ofReading]

theorem meet_eq_notText_iff {s : Progress} {line : List UInt8} :
    s.meet line = .notText ↔ decode line = none := by
  cases h : decode line with
  | none =>
      simp [meet_of_none h]
  | some cs =>
      rw [meet_of_some h]
      simp only [reduceCtorEq, iff_false]
      split
      · simp
      split
      · simp
      · cases s.takeLine (trim cs) <;> simp [Effect.ofReading]

/-! ## What breaks a line -/

theorem preamble_ne_unterminated {found : List (List Char)} {k : Nat} :
    preamble found ≠ .error (.unterminated k) := by
  unfold preamble
  repeat' split
  all_goals simp

namespace Progress

theorem declare_ne_unterminated {s : Progress} {found : List (List Char)} {k : Nat} :
    s.declare found ≠ .error (.unterminated k) := by
  unfold declare
  split
  · simp
  · cases h : Listing.preamble found with
    | ok declared =>
        simp [Except.map]
    | error cause =>
        rintro ⟨⟩
        exact preamble_ne_unterminated h

theorem literal_ne_unterminated {s : Progress} {word : List Char} {k : Nat} :
    s.literal word ≠ .error (.unterminated k) := by
  unfold literal
  repeat' split
  all_goals simp

theorem literals_ne_unterminated {s : Progress} {found : List (List Char)} {k : Nat} :
    s.literals found ≠ .error (.unterminated k) := by
  induction found generalizing s with
  | nil =>
      simp [literals, pure, Except.pure]
  | cons word found ih =>
      rw [literals, List.foldlM_cons]
      cases h : s.literal word with
      | ok t =>
          exact ih
      | error cause =>
          rintro ⟨⟩
          exact literal_ne_unterminated h

end Progress

/-- The complaint about an open clause is not about a line. -/
theorem meet_ne_unterminated {s : Progress} {line : List UInt8} {k : Nat} :
    s.meet line ≠ .broken (.unterminated k) := by
  have hreading : ∀ {r : Except Malformed Progress}, r ≠ .error (.unterminated k) →
      Effect.ofReading r ≠ .broken (.unterminated k) := by
    rintro (cause | s') hr ⟨⟩
    exact hr rfl
  unfold Progress.meet
  split
  · simp
  split
  · simp
  · simp
  · exact hreading Progress.declare_ne_unterminated
  · exact hreading Progress.literals_ne_unterminated

/-! ## Several lines -/

/-- What has been read after some lines, if the reading gets over all of them. -/
def Progress.after (s : Progress) : List (List UInt8) → Option Progress
  | [] => some s
  | line :: rest =>
      match s.meet line with
      | .on s' => s'.after rest
      | _ => none

theorem after_cons_of_on {s t : Progress} {line : List UInt8} (h : s.meet line = .on t)
    (rest : List (List UInt8)) : s.after (line :: rest) = t.after rest := by
  rw [Progress.after, h]

theorem exists_on_of_after {s s' : Progress} {line : List UInt8} {rest : List (List UInt8)}
    (h : s.after (line :: rest) = some s') : ∃ t, s.meet line = .on t ∧ t.after rest = some s' := by
  rw [Progress.after] at h
  split at h
  · rename_i t ht
    exact ⟨t, ht, h⟩
  · cases h

/-- Behind lines that it gets over, the reading goes on with what follows. -/
theorem readLines_of_after {s s' : Progress} {before : List (List UInt8)}
    (h : s.after before = some s') (n : Nat) (rest : List (List UInt8)) :
    readLines n s ((before ++ rest).map decode) =
      readLines (n + before.length) s' (rest.map decode) := by
  induction before generalizing n s with
  | nil =>
      cases h
      rfl
  | cons line before ih =>
      rcases exists_on_of_after h with ⟨t, ht, hrest⟩
      rw [List.cons_append, readLines_cons, ht]
      simp only [ih hrest]
      rw [List.length_cons, Nat.add_assoc, Nat.add_comm 1]

/-- A line that the reading gets over can be decoded and starts with no percent sign. -/
theorem decode_of_after {s s' : Progress} {before : List (List UInt8)} (h : s.after before = some s') :
    ∀ line ∈ before, decode line ≠ none ∧ isStop line = false := by
  induction before generalizing s with
  | nil =>
      simp
  | cons line before ih =>
      rcases exists_on_of_after h with ⟨t, ht, hrest⟩
      refine List.forall_mem_cons.2 ⟨⟨?_, ?_⟩, ih hrest⟩
      · rw [Ne, ← meet_eq_notText_iff (s := s), ht]
        simp
      · rw [Bool.eq_false_iff, Ne, ← meet_eq_stop_iff (s := s), ht]
        simp

/-- The ways in which a reading of lines ends, and the answer that it gives: at the end of the lines, or
behind some that it gets over at a line that stops it or breaks it. -/
inductive Halts (n : Nat) (s : Progress) (ls : List (List UInt8)) (r : Except ReadError Listing) :
    Prop where
  | finished {s' : Progress} (hafter : s.after ls = some s') (hr : r = s'.finish (n + ls.length))
  | stopped {before rest : List (List UInt8)} {line : List UInt8} {s' : Progress}
      (hls : ls = before ++ line :: rest) (hafter : s.after before = some s')
      (hline : s'.meet line = .stop) (hr : r = s'.finish (n + before.length + 1))
  | broken {before rest : List (List UInt8)} {line : List UInt8} {s' : Progress} {e : ReadError}
      (hls : ls = before ++ line :: rest) (hafter : s.after before = some s')
      (hline : (s'.meet line).error? (n + before.length + 1) = some e) (hr : r = .error e)

/-- A line that a reading gets over goes in front of how it ends. -/
theorem Halts.cons {n : Nat} {s t : Progress} {line : List UInt8} {ls : List (List UInt8)}
    {r : Except ReadError Listing} (hline : s.meet line = .on t) (h : Halts (n + 1) t ls r) :
    Halts n s (line :: ls) r := by
  have hlength : ∀ k, n + 1 + k = n + (k + 1) := by omega
  cases h with
  | finished hafter hr =>
      refine .finished ((after_cons_of_on hline ls).trans hafter) ?_
      rw [hr, hlength, List.length_cons]
  | @stopped before rest last s' hls hafter hlast hr =>
      refine .stopped (by rw [hls, List.cons_append])
        ((after_cons_of_on hline before).trans hafter) hlast ?_
      rw [hr, hlength, List.length_cons]
  | @broken before rest last s' e hls hafter hlast hr =>
      refine .broken (by rw [hls, List.cons_append])
        ((after_cons_of_on hline before).trans hafter) ?_ hr
      rw [List.length_cons, ← hlength]
      exact hlast

theorem halts (n : Nat) (s : Progress) (ls : List (List UInt8)) :
    Halts n s ls (readLines n s (ls.map decode)) := by
  induction ls generalizing n s with
  | nil =>
      exact .finished rfl rfl
  | cons line ls ih =>
      -- a line that is not got over has nothing in front of it
      have hfirst : line :: ls = [] ++ line :: ls := rfl
      rw [readLines_cons]
      cases hline : s.meet line with
      | on t =>
          exact (ih (n + 1) t).cons hline
      | stop =>
          exact .stopped hfirst rfl hline rfl
      | broken cause =>
          exact .broken hfirst rfl (by rw [hline]; rfl) rfl
      | notText =>
          exact .broken hfirst rfl (by rw [hline]; rfl) rfl

/-! ## Lines in which nothing is wrong -/

/-- Only the first line starts with `p`, and it declares counts that fit their widths. All other words are
integers of 32 bits, and each third is `0`. The words need not make triples. -/
structure Viable (lines : List (List Char)) : Prop where
  preamble_first : ∀ line ∈ lines.tail, line.head? ≠ some 'p'
  preamble : ∀ first, declaration lines = some first →
    ∃ vars clauses, IsPreamble first vars clauses ∧ vars < UInt32.size ∧ clauses < UInt64.size
  integers : ∀ word ∈ clauseWords lines, ∃ i, Decimal.Signed word i ∧
    Int32.minValue.toInt ≤ i ∧ i ≤ Int32.maxValue.toInt
  zeros : ∀ k word, (clauseWords lines)[3 * k + 2]? = some word → Decimal.Signed word 0

namespace Progress

/-- Words from the start of a clause are read if they are integers and each third is `0`. -/
theorem exists_literals_ok_iff (p : Option Preamble) :
    ∀ (found : List (List Char)) (clauses : Array (Int32 × Int32)),
      (∃ s, literals ⟨p, clauses, .none⟩ found = .ok s) ↔
        (∀ word ∈ found, ∃ x : Int32, Decimal.Signed word x.toInt) ∧
          ∀ k word, found[3 * k + 2]? = some word → Decimal.Signed word 0
  | [], clauses => by
      simp [literals, pure, Except.pure]
  -- one word and two words are not enough for a third
  | [v], clauses => by
      constructor
      · rintro ⟨s, hs⟩
        rcases bind_eq_ok.1 hs with ⟨t, ht, _⟩
        rcases literal_eq_ok_iff.1 ht with ⟨a, ha, _⟩
        exact ⟨by simpa using ⟨a, ha⟩, by simp⟩
      · rintro ⟨hintegers, _⟩
        rcases hintegers v List.mem_cons_self with ⟨a, ha⟩
        exact ⟨_, bind_eq_ok.2 ⟨_, literal_eq_ok_iff.2 ⟨a, ha, rfl⟩, rfl⟩⟩
  | [v, w], clauses => by
      constructor
      · rintro ⟨s, hs⟩
        rcases bind_eq_ok.1 hs with ⟨t, ht, hs⟩
        rcases bind_eq_ok.1 hs with ⟨u, hu, _⟩
        rcases literal_eq_ok_iff.1 ht with ⟨a, ha, _⟩
        rcases literal_eq_ok_iff.1 hu with ⟨b, hb, _⟩
        exact ⟨by simpa using ⟨⟨a, ha⟩, ⟨b, hb⟩⟩, by simp⟩
      · rintro ⟨hintegers, _⟩
        rcases hintegers v (by simp) with ⟨a, ha⟩
        rcases hintegers w (by simp) with ⟨b, hb⟩
        have hfirst : literal ⟨p, clauses, .none⟩ v = .ok ⟨p, clauses, .one a⟩ :=
          literal_eq_ok_iff.2 ⟨a, ha, rfl⟩
        have hsecond : literal ⟨p, clauses, .one a⟩ w = .ok ⟨p, clauses, .two a b⟩ :=
          literal_eq_ok_iff.2 ⟨b, hb, rfl⟩
        exact ⟨_, bind_eq_ok.2 ⟨_, hfirst, bind_eq_ok.2 ⟨_, hsecond, rfl⟩⟩⟩
  | v :: w :: z :: rest, clauses => by
      simp only [literals_triple, List.forall_mem_cons]
      constructor
      · rintro ⟨s, a, b, ha, hb, hz, hs⟩
        rcases (exists_literals_ok_iff p rest _).1 ⟨s, hs⟩ with ⟨hintegers, hzeros⟩
        refine ⟨⟨⟨a, ha⟩, ⟨b, hb⟩, ⟨0, hz⟩, hintegers⟩, ?_⟩
        intro k word hword
        cases k with
        | zero =>
            cases hword
            exact hz
        | succ k =>
            exact hzeros k word hword
      · rintro ⟨⟨⟨a, ha⟩, ⟨b, hb⟩, _, hintegers⟩, hzeros⟩
        have hrest := (exists_literals_ok_iff p rest (clauses.push (a, b))).2
          ⟨hintegers, fun k => hzeros (k + 1)⟩
        rcases hrest with ⟨s, hs⟩
        exact ⟨s, a, b, ha, hb, hzeros 0 z rfl, hs⟩

/-- Lines are read as a preamble, if the first is one, and one row of words. -/
theorem foldlM_takeLine_eq_ok_iff {cs : List (List Char)} (hne : ∀ line ∈ cs, fieldsOf line ≠ [])
    {s : Progress} :
    cs.foldlM takeLine .start = .ok s ↔
      (∀ line ∈ cs.tail, line.head? ≠ some 'p') ∧
        ∃ p : Option Preamble,
          (declaration cs = none → p = none) ∧
          (∀ first, declaration cs = some first →
            ∃ declared, Listing.preamble (fieldsOf first) = .ok declared ∧ p = some declared) ∧
          literals ⟨p, #[], .none⟩ (clauseWords cs) = .ok s := by
  cases cs with
  | nil =>
      simp [declaration, clauseWords, clauseLines, literals, start]
  | cons first rest =>
      by_cases hp : first.head? = some 'p'
      · rcases @declaration_cons first rest hp with ⟨hdeclaration, hclauses⟩
        rw [foldlM_takeLine_declared hp, clauseWords, hclauses, hdeclaration]
        simp only [List.tail_cons, reduceCtorEq, false_implies, true_and, Option.some.injEq,
          forall_eq']
        constructor
        · rintro ⟨declared, hdeclared, hrest, hs⟩
          exact ⟨hrest, some declared, ⟨declared, hdeclared, rfl⟩, hs⟩
        · rintro ⟨hrest, _, ⟨declared, hdeclared, rfl⟩, hs⟩
          exact ⟨declared, hdeclared, hrest, hs⟩
      · have hplain : declaration (first :: rest) = none ∧
            clauseLines (first :: rest) = first :: rest := ⟨if_neg hp, if_neg hp⟩
        rw [foldlM_takeLine_plain (hne first List.mem_cons_self) hp, clauseWords, hplain.2, hplain.1]
        simp only [List.tail_cons, forall_const, reduceCtorEq, false_implies, true_and, exists_eq_left]
        rfl

/-- Lines are read to the end of the last exactly if they are viable. -/
theorem exists_foldlM_takeLine_iff {cs : List (List Char)} (hne : ∀ line ∈ cs, fieldsOf line ≠ []) :
    (∃ s, cs.foldlM takeLine .start = .ok s) ↔ Viable cs := by
  simp only [foldlM_takeLine_eq_ok_iff hne]
  constructor
  · rintro ⟨s, htail, p, _, hdeclared, hs⟩
    rcases (exists_literals_ok_iff p _ _).1 ⟨s, hs⟩ with ⟨hintegers, hzeros⟩
    refine ⟨htail, ?_, fun word hword => exists_int32_iff.1 (hintegers word hword), hzeros⟩
    intro first hfirst
    rcases hdeclared first hfirst with ⟨declared, hpreamble, _⟩
    exact ⟨_, _, preamble_eq_ok_iff.1 hpreamble, declared.vars.toNat_lt_size,
      declared.clauses.toNat_lt_size⟩
  · intro h
    have hwords : ∀ p, ∃ s, literals ⟨p, #[], .none⟩ (clauseWords cs) = .ok s := fun p =>
      (exists_literals_ok_iff p _ _).2
        ⟨fun word hword => exists_int32_iff.2 (h.integers word hword), h.zeros⟩
    cases hdeclaration : declaration cs with
    | none =>
        rcases hwords none with ⟨s, hs⟩
        exact ⟨s, h.preamble_first, none, fun _ => rfl, by simp, hs⟩
    | some first =>
        rcases h.preamble first hdeclaration with ⟨vars, clauses, hfirst, hvars, hcount⟩
        rw [← UInt32.toNat_ofNat_of_lt' hvars, ← UInt64.toNat_ofNat_of_lt' hcount] at hfirst
        have hpreamble : Listing.preamble (fieldsOf first) =
            .ok ⟨UInt32.ofNat vars, UInt64.ofNat clauses⟩ := preamble_eq_ok_iff.2 hfirst
        rcases hwords (some ⟨UInt32.ofNat vars, UInt64.ofNat clauses⟩) with ⟨s, hs⟩
        refine ⟨s, h.preamble_first, _, by simp, ?_, hs⟩
        rintro _ ⟨⟩
        exact ⟨_, hpreamble, rfl⟩

/-- What is left open are the words left over from triples. -/
theorem count_foldlM_takeLine {cs : List (List Char)} (hne : ∀ line ∈ cs, fieldsOf line ≠ [])
    {s : Progress} (h : cs.foldlM takeLine .start = .ok s) :
    s.pending.count = (clauseWords cs).length % 3 := by
  rcases (foldlM_takeLine_eq_ok_iff hne).1 h with ⟨_, p, _, _, hs⟩
  rw [count_literals hs]
  exact congrArg (· % 3) (Nat.zero_add _)

end Progress

/-- Getting over lines that start with no percent sign is reading what matters of them. -/
theorem after_iff {s s' : Progress} {before : List (List UInt8)}
    (hstop : ∀ line ∈ before, isStop line = false) :
    s.after before = some s' ↔ ∃ ls, before.map decode = ls.map some ∧
      (contentOf ls).foldlM Progress.takeLine s = .ok s' := by
  induction before generalizing s with
  | nil =>
      simp [Progress.after, contentOf, pure, Except.pure]
  | cons line before ih =>
      rcases List.forall_mem_cons.1 hstop with ⟨hline, hbefore⟩
      cases hdecode : decode line with
      | none =>
          have hbroken : s.after (line :: before) = none := by
            rw [Progress.after, meet_of_none hdecode]
          rw [hbroken, List.map_cons, hdecode]
          constructor
          · rintro ⟨⟩
          · rintro ⟨ls, hls, _⟩
            rcases List.map_eq_cons_iff.1 hls.symm with ⟨_, _, _, hnone, _⟩
            cases hnone
      | some cs =>
          have hpercent : (trim cs).head? ≠ some '%' := by
            intro hhead
            rw [(isStop_of_some hdecode).2 hhead] at hline
            cases hline
          -- the first of the decoded lines is this one
          have hfirst : ∀ P : List (List Char) → Prop,
              (∃ ls, (line :: before).map decode = ls.map some ∧ P ls) ↔
                ∃ ls, before.map decode = ls.map some ∧ P (cs :: ls) := by
            intro P
            constructor
            · rintro ⟨ls, hls, hP⟩
              rw [List.map_cons, hdecode] at hls
              rcases List.map_eq_cons_iff.1 hls.symm with ⟨cs', ls', rfl, ⟨⟩, hls'⟩
              exact ⟨ls', hls'.symm, hP⟩
            · rintro ⟨ls, hls, hP⟩
              exact ⟨cs :: ls, by rw [List.map_cons, List.map_cons, hdecode, hls], hP⟩
          rw [hfirst, Progress.after, meet_of_some hdecode, if_neg hpercent]
          simp only [contentOf_cons, if_neg hpercent]
          by_cases hskip : trim cs = [] ∨ (trim cs).head? = some 'c'
          · simp only [if_pos hskip]
            exact ih hbefore
          · simp only [if_neg hskip, List.foldlM_cons]
            cases s.takeLine (trim cs) with
            | ok t =>
                exact ih hbefore
            | error cause =>
                simp [Effect.ofReading, bind, Except.bind]

end Listing
end TwoCnf
