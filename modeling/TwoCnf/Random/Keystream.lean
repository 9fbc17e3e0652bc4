/-!
# Keystream — a reproducible stream of words

The words come from the ChaCha block function with eight rounds. The key is derived from a 64-bit seed
by a linear congruential generator whose states are scrambled into 32-bit words.

* `Keystream.ofSeed` starts the stream of a seed;
* `Keystream.next` takes the next word.
-/

namespace TwoCnf

/-- A key, the number of the next block, and what is left of the block before it. -/
structure Keystream where
  key : Vector UInt32 8
  counter : UInt64
  left : List UInt32
  deriving DecidableEq, Repr

namespace Keystream

/-! ## The key of a seed -/

/-- The state after a state of the congruential generator. -/
def advance (state : UInt64) : UInt64 :=
  state * 6364136223846793005 + 11634580027462260723

/-- Rotates a word to the left by less than its width. -/
def rotateLeft (x : UInt32) (amount : UInt32) : UInt32 :=
  (x <<< amount) ||| (x >>> (32 - amount))

/-- Rotates a word to the right by less than its width. -/
def rotateRight (x : UInt32) (amount : UInt32) : UInt32 :=
  (x >>> amount) ||| (x <<< (32 - amount))

/-- The word of a state: high bits folded onto lower ones, rotated by the top five bits. -/
def scramble (state : UInt64) : UInt32 :=
  rotateRight (((state >>> 18) ^^^ state) >>> 27).toUInt32 (state >>> 59).toUInt32

/-- The stream of a seed, at its start. -/
def ofSeed (seed : UInt64) : Keystream where
  key := Vector.ofFn fun i => scramble (Nat.repeat advance (i.val + 1) seed)
  counter := 0
  left := []

/-! ## Blocks -/

/-- The words of a block under construction. -/
abbrev Words :=
  Vector UInt32 16

/-- The quarter round on the words at four places. -/
def quarterRound (s : Words) (a b c d : Fin 16) : Words :=
  let s := s.set a (s[a] + s[b])
  let s := s.set d (rotateLeft (s[d] ^^^ s[a]) 16)
  let s := s.set c (s[c] + s[d])
  let s := s.set b (rotateLeft (s[b] ^^^ s[c]) 12)
  let s := s.set a (s[a] + s[b])
  let s := s.set d (rotateLeft (s[d] ^^^ s[a]) 8)
  let s := s.set c (s[c] + s[d])
  s.set b (rotateLeft (s[b] ^^^ s[c]) 7)

/-- Two rounds: the columns of the four by four square of words, then its diagonals. -/
def doubleRound (s : Words) : Words :=
  let s := quarterRound s 0 4 8 12
  let s := quarterRound s 1 5 9 13
  let s := quarterRound s 2 6 10 14
  let s := quarterRound s 3 7 11 15
  let s := quarterRound s 0 5 10 15
  let s := quarterRound s 1 6 11 12
  let s := quarterRound s 2 7 8 13
  quarterRound s 3 4 9 14

/-- The four words that every block starts with. -/
def constants : Vector UInt32 4 :=
  #v[0x61707865, 0x3320646e, 0x79622d32, 0x6b206574]

/-- The words that a block starts from: the constants, the key, the counter and two zeros. -/
def initial (key : Vector UInt32 8) (counter : UInt64) : Words :=
  constants ++ key ++ #v[counter.toUInt32, (counter >>> 32).toUInt32, 0, 0]

/-- The words of a block. -/
def block (key : Vector UInt32 8) (counter : UInt64) : Words :=
  let start := initial key counter
  (Nat.repeat doubleRound 4 start).zipWith (· + ·) start

/-- The next word, and the stream after it. -/
def next (k : Keystream) : UInt32 × Keystream :=
  match k.left with
  | word :: left => (word, { k with left := left })
  | [] =>
      let words := block k.key k.counter
      (words[0], { k with counter := k.counter + 1, left := words.toList.drop 1 })

end Keystream
end TwoCnf
