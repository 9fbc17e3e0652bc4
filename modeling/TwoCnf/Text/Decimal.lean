/-!
# Decimal — numbers as digits

A number is written with the fewest digits and, when it is negative, a minus sign. It is read from
one or more ASCII digits, with any number of leading zeros and at most one sign in front. A count may
carry a plus sign only; an integer may carry either.

* `natural` and `integer` write;
* `readNatural?` and `readInteger?` read without a bound;
* `readUInt32?`, `readUInt64?` and `readInt32?` read and refuse what the width cannot hold.
-/

namespace TwoCnf
namespace Text
namespace Decimal

/-! ## Writing -/

/-- The digits of a natural number. -/
def natural (n : Nat) : String :=
  String.ofList (Nat.toDigits 10 n)

/-- The digits of an integer, after a minus sign if it is negative. -/
def integer (i : Int) : String :=
  if i < 0 then "-" ++ natural i.natAbs else natural i.natAbs

/-! ## Reading -/

/-- The value of a nonempty run of digits. -/
def readDigits? (text : List Char) : Option Nat :=
  if text ≠ [] ∧ text.all Char.isDigit then some (Nat.ofDigitChars 10 text 0) else none

/-- A count: digits after at most one plus sign. -/
def readNatural? : List Char → Option Nat
  | '+' :: digits => readDigits? digits
  | digits => readDigits? digits

/-- An integer: digits after at most one sign. -/
def readInteger? : List Char → Option Int
  | '-' :: digits => (readDigits? digits).map fun n => -(n : Int)
  | '+' :: digits => (readDigits? digits).map fun n => (n : Int)
  | digits => (readDigits? digits).map fun n => (n : Int)

/-- A count below `2 ^ 32`. -/
def readUInt32? (text : List Char) : Option UInt32 :=
  (readNatural? text).bind fun n => if n < UInt32.size then some (UInt32.ofNat n) else none

/-- A count below `2 ^ 64`. -/
def readUInt64? (text : List Char) : Option UInt64 :=
  (readNatural? text).bind fun n => if n < UInt64.size then some (UInt64.ofNat n) else none

/-- An integer from `-2 ^ 31` to `2 ^ 31 - 1`. -/
def readInt32? (text : List Char) : Option Int32 :=
  (readInteger? text).bind fun i =>
    if Int32.minValue.toInt ≤ i ∧ i ≤ Int32.maxValue.toInt then some (Int32.ofInt i) else none

end Decimal
end Text
end TwoCnf
