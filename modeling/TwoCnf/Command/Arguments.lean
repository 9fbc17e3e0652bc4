import TwoCnf.Random.Instance
import TwoCnf.Text.Decimal

/-!
# Arguments — from words to an invocation

A run is asked for by a list of words: switches, the name of a command, and the command's own words. An
option is written `--name value` or `--name=value`, and a switch `--name`; each may be given once. `-v`,
alone or bundled as in `-vvv`, and `--verbose` raise the verbosity and may be given anywhere, and if they
are given on both sides of the command's name, those after it count. After `--` every word is taken as it
stands. A word that starts with a dash is no value of an option unless it is attached or is the dash
alone.

`Invocation.parse?` is `none` for words that are not understood.
-/

namespace TwoCnf

/-! ## Invocations -/

/-- What to print and check besides the verdict. -/
structure SolveOptions where
  crossCheck : Bool
  dumpGraph : Bool
  dumpComponents : Bool
  deriving DecidableEq, Repr

/-- What a run is to do. -/
inductive Command where
  | solve (path : String) (options : SolveOptions)
  | stats (path : String)
  | generate (recipe : Recipe) (out : String)
  deriving DecidableEq, Repr

/-- A command and the verbosity of its log. -/
structure Invocation where
  verbosity : Nat
  command : Command
  deriving DecidableEq, Repr

namespace Arguments

open Text

/-! ## Words by their form -/

/-- A word of a command by its meaning. -/
inductive Item where
  | verbose (times : Nat)
  | switch (name : List Char)
  | option (name value : List Char)
  | plain (value : List Char)
  deriving DecidableEq, Repr

/-- Which switches and options a command has. -/
structure Vocabulary where
  switches : List String
  options : List String

/-- Whether a name is among those listed. -/
def known (names : List String) (name : List Char) : Bool :=
  names.any fun n => n.toList == name

/-- A bundle of `v`s behind a dash counts as often as it has letters. -/
def bundle? (letters : List Char) : Option Item :=
  if letters.all (· == 'v') then some (.verbose letters.length) else none

/-- A name with an attached value, cut at the first equals sign. -/
def attached? (text : List Char) : Option (List Char × List Char) :=
  match text.dropWhile (· != '=') with
  | [] => none
  | _ :: value => some (text.takeWhile (· != '='), value)

/-- Whether a word may be the value of the option in front of it. -/
def isValue : List Char → Bool
  | '-' :: _ :: _ => false
  | _ => true

/-- A switch without a value. -/
def switch? (v : Vocabulary) (name : List Char) : Option Item :=
  if name = "verbose".toList then some (.verbose 1)
  else if known v.switches name then some (.switch name)
  else none

/-- The items of a command's words. -/
def items? (v : Vocabulary) : List (List Char) → Option (List Item)
  | [] => some []
  | ['-', '-'] :: rest => some (rest.map .plain)
  | ('-' :: '-' :: text) :: rest =>
      match attached? text with
      | some (name, value) =>
          if known v.options name then (items? v rest).map (.option name value :: ·) else none
      | none =>
          if known v.options text then
            match rest with
            | value :: rest =>
                if isValue value then (items? v rest).map (.option text value :: ·) else none
            | [] => none
          else (switch? v text).bind fun item => (items? v rest).map (item :: ·)
  | ('-' :: letter :: letters) :: rest =>
      (bundle? (letter :: letters)).bind fun item => (items? v rest).map (item :: ·)
  | word :: rest => (items? v rest).map (.plain word :: ·)

/-! ## Items of one kind -/

/-- The verbosity that items ask for, if they ask for any. -/
def verbosity? (items : List Item) : Option Nat :=
  let counts := items.filterMap fun
    | .verbose n => some n
    | _ => none
  if counts.isEmpty then none else some (counts.foldl (· + ·) 0)

/-- The words taken as they stand. -/
def plainWords (items : List Item) : List (List Char) :=
  items.filterMap fun
    | .plain value => some value
    | _ => none

/-- Whether a switch is given; `none` if it is given more than once. -/
def switch (items : List Item) (name : String) : Option Bool :=
  match items.count (.switch name.toList) with
  | 0 => some false
  | 1 => some true
  | _ => none

/-- The value of an option, which may be missing; `none` if the option is given more than once. -/
def value (items : List Item) (name : String) : Option (Option (List Char)) :=
  let values := items.filterMap fun
    | .option n v => if n = name.toList then some v else none
    | _ => none
  match values with
  | [] => some none
  | [v] => some (some v)
  | _ => none

/-- The value of an option that has to be there. -/
def required (items : List Item) (name : String) : Option (List Char) :=
  (value items name).join

/-! ## Commands -/

/-- The one path that a command works on. -/
def path? (items : List Item) : Option String :=
  match plainWords items with
  | [path] => some (String.ofList path)
  | _ => none

/-- A number of variables: an integer that a count of 32 bits can hold. -/
def variables? (text : List Char) : Option UInt32 :=
  (Decimal.readInteger? text).bind fun i =>
    if 0 ≤ i ∧ i.toNat < UInt32.size then some (UInt32.ofNat i.toNat) else none

/-- The switches of the command that solves. -/
def solveVocabulary : Vocabulary :=
  ⟨["cross-check", "dump-graph", "dump-sccs"], []⟩

/-- The command that counts has no words of its own but the path. -/
def statsVocabulary : Vocabulary :=
  ⟨[], []⟩

/-- The switch and the options of the command that generates. -/
def generateVocabulary : Vocabulary :=
  ⟨["unsat-allowed"], ["vars", "clauses", "seed", "out"]⟩

/-- The command that solves. -/
def solve? (items : List Item) : Option Command := do
  let path ← path? items
  let crossCheck ← switch items "cross-check"
  let dumpGraph ← switch items "dump-graph"
  let dumpComponents ← switch items "dump-sccs"
  return .solve path ⟨crossCheck, dumpGraph, dumpComponents⟩

/-- The command that counts. -/
def stats? (items : List Item) : Option Command :=
  (path? items).map .stats

/-- The seed, which is `1` unless it is given. -/
def seed? (items : List Item) : Option UInt64 := do
  match ← value items "seed" with
  | none => return 1
  | some text => Decimal.readUInt64? text

/-- The command that generates. -/
def generate? (items : List Item) : Option Command := do
  if !(plainWords items).isEmpty then none
  let vars ← variables? (← required items "vars")
  let clauses ← Decimal.readUInt64? (← required items "clauses")
  let seed ← seed? items
  let unsatAllowed ← switch items "unsat-allowed"
  let out ← required items "out"
  return .generate ⟨vars, clauses, seed, !unsatAllowed⟩ (String.ofList out)

/-- A command by its name: its vocabulary and how it is read from its items. -/
def command? (name : List Char) : Option (Vocabulary × (List Item → Option Command)) :=
  if name = "solve".toList then some (solveVocabulary, solve?)
  else if name = "stats".toList then some (statsVocabulary, stats?)
  else if name = "gen".toList then some (generateVocabulary, generate?)
  else none

/-- The verbosity in front of a command's name, then the command. -/
def invocation? (count : Nat) : List (List Char) → Option Invocation
  | [] => none
  | ('-' :: '-' :: text) :: rest =>
      if text = "verbose".toList then invocation? (count + 1) rest else none
  | ('-' :: letter :: letters) :: rest =>
      match bundle? (letter :: letters) with
      | some (.verbose n) => invocation? (count + n) rest
      | _ => none
  | name :: rest => do
      let (vocabulary, read) ← command? name
      let items ← items? vocabulary rest
      let command ← read items
      return ⟨(verbosity? items).getD count, command⟩

end Arguments

/-- The invocation that a list of words asks for. -/
def Invocation.parse? (words : List String) : Option Invocation :=
  Arguments.invocation? 0 (words.map String.toList)

end TwoCnf
