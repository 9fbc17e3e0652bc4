import TwoCnf.Listing.Basic
import TwoCnf.Text.Split

/-!
# Reader — listings from text and from bytes

A listing is read line by line. Only the words of a line matter:

* a line without words, or whose first word starts with `c`, is skipped;
* a first word that starts with `%` ends the listing, whatever follows;
* a first word that starts with `p` makes a preamble, which has to come before all clauses;
* any other line holds literals. Each third one is `0` and ends a clause, and a clause may run over
  several lines.

`parse` reads a text and `parseBytes` reads bytes. The bytes are decoded one line at a time, so a line
that is not UTF-8 matters only when the reading gets to it.
-/

namespace TwoCnf
namespace Listing

open Text

/-! ## What can be wrong with a line -/

/-- The ways in which a line, or the end of the lines, breaks the format. -/
inductive Malformed where
  | unexpectedPreamble
  | preambleShape
  | unknownFormat (word : List Char)
  | variableCount (word : List Char)
  | clauseCount (word : List Char)
  | literal (word : List Char)
  | longClause
  | unterminated (tokens : Nat)
  deriving DecidableEq, Repr

/-- Why no listing could be read. Lines are numbered from `1`. -/
inductive ReadError where
  | malformed (line : Nat) (cause : Malformed)
  | notText
  deriving DecidableEq, Repr

/-- A word between single quotes. -/
def quoted (word : List Char) : String :=
  "'" ++ String.ofList word ++ "'"

/-- The wording of a cause. -/
def Malformed.message : Malformed → String
  | .unexpectedPreamble => "unexpected preamble line"
  | .preambleShape => "invalid preamble, expected: p cnf V C"
  | .unknownFormat word => "unrecognized format " ++ quoted word
  | .variableCount word => "invalid variable count " ++ quoted word
  | .clauseCount word => "invalid clause count " ++ quoted word
  | .literal word => "invalid literal token " ++ quoted word
  | .longClause => "clause is too long or unterminated"
  | .unterminated tokens =>
      "unterminated clause at end of input (" ++ Decimal.natural tokens ++ " tokens)"

/-- The words in front of the reason why a source could not be read. -/
def readingFailed : String :=
  "failed to read clause input: "

/-- The complaint about a line that is not UTF-8. -/
def notUtf8 : String :=
  "stream did not contain valid UTF-8"

/-- The wording of an error. -/
def ReadError.message : ReadError → String
  | .malformed line cause => "line " ++ Decimal.natural line ++ ": " ++ cause.message
  | .notText => readingFailed ++ notUtf8

/-! ## Lines by their role -/

/-- The role of a line. -/
inductive Role where
  | skipped
  | stop
  | preamble
  | literals
  deriving DecidableEq, Repr

/-- The first character of the first word tells the role of a line. -/
def role (words : List (List Char)) : Role :=
  match words.head?.bind List.head? with
  | none => .skipped
  | some 'c' => .skipped
  | some '%' => .stop
  | some 'p' => .preamble
  | some _ => .literals

/-! ## The state between lines -/

/-- The halves of a clause that is not ended yet. -/
inductive Open where
  | none
  | one (a : Int32)
  | two (a b : Int32)
  deriving DecidableEq, Repr

/-- How many literals an open clause has. -/
def Open.count : Open → Nat
  | .none => 0
  | .one _ => 1
  | .two _ _ => 2

/-- What has been read so far. -/
structure Progress where
  preamble : Option Preamble
  clauses : Array (Int32 × Int32)
  pending : Open

namespace Progress

/-- Nothing has been read. -/
def start : Progress :=
  ⟨none, #[], .none⟩

/-- Whether a literal has been read. -/
def started (s : Progress) : Bool :=
  !s.clauses.isEmpty || s.pending != .none

/-- Reads one literal. A third one has to be the `0` that ends the clause. -/
def literal (s : Progress) (word : List Char) : Except Malformed Progress :=
  match Decimal.readInt32? word with
  | none => .error (.literal word)
  | some x =>
      match s.pending with
      | .none => .ok { s with pending := .one x }
      | .one a => .ok { s with pending := .two a x }
      | .two a b =>
          if x = 0 then .ok { s with clauses := s.clauses.push (a, b), pending := .none }
          else .error .longClause

/-- Reads the literals of a line from left to right. -/
def literals (s : Progress) (words : List (List Char)) : Except Malformed Progress :=
  words.foldlM literal s

end Progress

/-- Reads the words of a preamble. -/
def preamble : List (List Char) → Except Malformed Preamble
  | [mark, format, vars, clauses] =>
      if mark ≠ ['p'] then .error .preambleShape
      else if format ≠ ['c', 'n', 'f'] then .error (.unknownFormat format)
      else
        match Decimal.readUInt32? vars with
        | none => .error (.variableCount vars)
        | some v =>
            match Decimal.readUInt64? clauses with
            | none => .error (.clauseCount clauses)
            | some c => .ok ⟨v, c⟩
  | _ => .error .preambleShape

namespace Progress

/-- Reads a preamble line. It is welcome only before any other preamble and any literal. -/
def declare (s : Progress) (words : List (List Char)) : Except Malformed Progress :=
  if s.preamble.isSome || s.started then .error .unexpectedPreamble
  else (Listing.preamble words).map fun declared => { s with preamble := some declared }

/-- Closes the reading after `line` lines. -/
def finish (s : Progress) (line : Nat) : Except ReadError Listing :=
  match s.pending with
  | .none =>
      .ok
        { declaredVars := s.preamble.map Preamble.vars
          declaredClauses := s.preamble.map Preamble.clauses
          clauses := s.clauses.toList }
  | pending => .error (.malformed line (.unterminated pending.count))

end Progress

/-! ## The reading -/

/-- Reads the lines that follow the first `n`. A line that could not be decoded is `none`. -/
def readLines (n : Nat) (s : Progress) : List (Option (List Char)) → Except ReadError Listing
  | [] => s.finish n
  | none :: _ => .error .notText
  | some line :: rest =>
      let found := words line
      match role found with
      | .skipped => readLines (n + 1) s rest
      | .stop => s.finish (n + 1)
      | .preamble =>
          match s.declare found with
          | .ok s' => readLines (n + 1) s' rest
          | .error cause => .error (.malformed (n + 1) cause)
      | .literals =>
          match s.literals found with
          | .ok s' => readLines (n + 1) s' rest
          | .error cause => .error (.malformed (n + 1) cause)

/-- Reads a listing from a text. -/
def parse (text : String) : Except ReadError Listing :=
  readLines 0 .start ((lines (· == '\n') text.toList).map some)

/-- Decodes the bytes of one line. -/
def decode (bytes : List UInt8) : Option (List Char) :=
  (String.fromUTF8? ⟨bytes.toArray⟩).map String.toList

/-- Reads a listing from bytes, decoding each line when it is reached. -/
def parseBytes (bytes : ByteArray) : Except ReadError Listing :=
  readLines 0 .start ((lines (· == 10) bytes.data.toList).map decode)

end Listing
end TwoCnf
