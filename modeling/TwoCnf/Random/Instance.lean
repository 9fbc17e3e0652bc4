import TwoCnf.Fault
import TwoCnf.Listing.Basic
import TwoCnf.Random.Keystream

/-!
# Instance — random formulas

A `Recipe` asks for a number of clauses over a number of variables. Each half is a variable and a
polarity drawn at random. A planted instance is drawn around a hidden table of bits: a clause that is
false under the bits has one of its halves flipped.

The draws take their words from any source `next : σ → UInt32 × σ`; `Recipe.generate` takes them from
the keystream of the recipe's seed.
-/

namespace TwoCnf

/-- What to generate. -/
structure Recipe where
  vars : UInt32
  clauses : UInt64
  seed : UInt64
  planted : Bool
  deriving DecidableEq, Repr

/-- A generated listing, and the bits it was planted around if it was. Place `0` of the bits is not
used. -/
structure Instance where
  listing : Listing
  hidden : Option (Array Bool)
  deriving DecidableEq, Repr

/-- Why a recipe cannot be followed. -/
inductive RecipeError where
  | noVariables (clauses : UInt64)
  | tooManyVariables (vars : UInt32)
  | tooManyClauses
  | fault (e : Fault)
  deriving DecidableEq, Repr

/-- The wording of an error. -/
def RecipeError.message : RecipeError → String
  | .noVariables clauses =>
      "cannot generate " ++ Text.Decimal.natural clauses.toNat ++ " clauses over 0 variables"
  | .tooManyVariables vars =>
      "vars must fit a signed literal, got " ++ Text.Decimal.natural vars.toNat
  | .tooManyClauses => "capacity overflow"
  | .fault e => e.message

/-- A computation that takes words from a source. -/
abbrev Draw (σ α : Type) :=
  StateT σ (Except RecipeError) α

namespace Draw

variable {σ : Type} (next : σ → UInt32 × σ)

/-! ## Single values -/

/-- The next word. -/
def word : Draw σ UInt32 :=
  fun source => .ok (next source)

/-- The top bit of a word. -/
def bit : Draw σ Bool :=
  return 0x80000000 ≤ (← word next)

/-- A number from `1` to `bound`: one more than the upper half of a word times the bound. When the lower
half is within `bound` of overflowing, the upper half of a second product decides about a carry. -/
def upTo (bound : UInt32) : Draw σ UInt32 := do
  let product := (← word next).toNat * bound.toNat
  let high := product / UInt32.size
  let low := product % UInt32.size
  if UInt32.size - bound.toNat < low then
    let again := (← word next).toNat * bound.toNat
    return UInt32.ofNat (1 + high + (low + again / UInt32.size) / UInt32.size)
  else
    return UInt32.ofNat (1 + high)

/-- A variable from `1` to `vars`, or its negation. -/
def half (vars : UInt32) : Draw σ Int32 := do
  let var := (← upTo next vars).toInt32
  if ← bit next then return var else return -var

/-! ## Tables of bits and clauses -/

/-- Appends `n` drawn bits. -/
def bits : Nat → Array Bool → Draw σ (Array Bool)
  | 0, table => return table
  | n + 1, table => do
      bits n (table.push (← bit next))

/-- The value of a half under a table of bits. -/
def truth (table : Array Bool) (x : Int32) : Except RecipeError Bool :=
  match entry table (magnitude x).toNat with
  | .ok value => .ok (if 0 < x then value else !value)
  | .error fault => .error (.fault fault)

/-- Flips one of two halves unless one of them is true under the table. -/
def mend (table : Array Bool) (a b : Int32) : Draw σ (Int32 × Int32) := do
  if ← truth table a then return (a, b)
  else if ← truth table b then return (a, b)
  else if ← bit next then return (-a, b)
  else return (a, -b)

/-- A clause, which is true under the hidden table if there is one. -/
def clause (vars : UInt32) (hidden : Option (Array Bool)) : Draw σ (Int32 × Int32) := do
  let a ← half next vars
  let b ← half next vars
  match hidden with
  | none => return (a, b)
  | some table => mend next table a b

/-- Appends `n` clauses. -/
def clauses (vars : UInt32) (hidden : Option (Array Bool)) :
    Nat → Array (Int32 × Int32) → Draw σ (Array (Int32 × Int32))
  | 0, drawn => return drawn
  | n + 1, drawn => do
      clauses vars hidden n (drawn.push (← clause next vars hidden))

end Draw

namespace Recipe

/-- The instance that a recipe draws from a source of words. -/
def draw {σ : Type} (next : σ → UInt32 × σ) (r : Recipe) : Draw σ Instance := do
  let hidden ← if r.planted then some <$> Draw.bits next r.vars.toNat #[false] else pure none
  let clauses ← Draw.clauses next r.vars hidden r.clauses.toNat #[]
  return ⟨⟨some r.vars, some r.clauses, clauses.toList⟩, hidden⟩

/-- The most clauses of an instance: of eight bytes each, as many as `2 ^ 63 - 1` bytes can hold. -/
def maxClauses : UInt64 :=
  0x0fffffffffffffff

/-- The complaint about a recipe that cannot be followed. Literals are signed, so variables end at
`2 ^ 31 - 1`. -/
def complaint? (r : Recipe) : Option RecipeError :=
  if r.vars = 0 ∧ 0 < r.clauses then some (.noVariables r.clauses)
  else if 0x7fffffff < r.vars then some (.tooManyVariables r.vars)
  else if maxClauses < r.clauses then some .tooManyClauses
  else none

/-- Follows a recipe with the words of a source. -/
def generateFrom {σ : Type} (next : σ → UInt32 × σ) (source : σ) (r : Recipe) :
    Except RecipeError Instance :=
  match r.complaint? with
  | some complaint => .error complaint
  | none => (·.1) <$> (r.draw next).run source

/-- Follows a recipe with the words of its seed. -/
def generate (r : Recipe) : Except RecipeError Instance :=
  r.generateFrom Keystream.next (.ofSeed r.seed)

end Recipe
end TwoCnf
