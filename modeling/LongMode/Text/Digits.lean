/-!
Numbers as digits: writing in a base, with or without leading zeros, and reading a digit sequence
below a bound.
-/

namespace LongMode.Digits

/-- The value of a digit in any base up to sixteen. -/
def value? (c : Char) : Option Nat :=
  if '0' ≤ c ∧ c ≤ '9' then some (c.toNat - '0'.toNat)
  else if 'a' ≤ c ∧ c ≤ 'f' then some (c.toNat - 'a'.toNat + 10)
  else if 'A' ≤ c ∧ c ≤ 'F' then some (c.toNat - 'A'.toNat + 10)
  else none

/-- The number that a sequence of digits continues, when every character is a digit of the base. -/
def continue? (base : Nat) : Nat → List Char → Option Nat
  | n, [] => some n
  | n, c :: rest =>
    match value? c with
    | some d => if d < base then continue? base (n * base + d) rest else none
    | none => none

/-- The number below `bound` that a text stands for: an optional plus sign and at least one
digit. -/
def read? (base bound : Nat) (text : List Char) : Option Nat :=
  let digits := match text with
    | '+' :: rest => rest
    | _ => text
  if digits.isEmpty then none
  else (continue? base 0 digits).filter (· < bound)

def lowerHex (n : Nat) : List Char := Nat.toDigits 16 n

def upperHex (n : Nat) : List Char := (Nat.toDigits 16 n).map Char.toUpper

/-- Zeros in front, up to `width` digits. -/
def padded (width : Nat) (digits : List Char) : List Char :=
  List.replicate (width - digits.length) '0' ++ digits

/-- For instance `0x1f`. -/
def prefixedHex (n : Nat) : String := String.ofList ('0' :: 'x' :: lowerHex n)

/-- For instance `0x1F`. -/
def prefixedUpperHex (n : Nat) : String := String.ofList ('0' :: 'x' :: upperHex n)

/-- Eight or more lower-case digits behind the marker, for instance `0x00001000`. -/
def longHex (n : Nat) : String := String.ofList ('0' :: 'x' :: padded 8 (lowerHex n))

def byteHex (b : UInt8) : String := String.ofList (padded 2 (upperHex b.toNat))

def bytesHex (bytes : List UInt8) : String :=
  String.ofList (bytes.flatMap fun b => padded 2 (lowerHex b.toNat))

end LongMode.Digits
