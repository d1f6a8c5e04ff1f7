import LongMode.Json.Quoted
/-!
JSON numbers. Only natural numbers have a meaning here; every other number keeps its spelling.
-/

namespace LongMode.Json

inductive Number where
  /-- Digits alone. -/
  | natural (n : Nat)
  /-- A number with a sign, a fraction or an exponent. -/
  | other (spelling : List Char)
deriving DecidableEq, Repr

namespace Number

def isDigit (c : Char) : Bool := '0' ≤ c && c ≤ '9'

/-- The digits at the front of a text, at least one, and the rest. -/
def digits (text : List Char) : Except Refusal (List Char × List Char) :=
  match text.span isDigit with
  | ([], []) => .error .truncated
  | ([], _) => .error .malformed
  | found => .ok found

/-- Digits that do not start with a zero, or a zero alone. -/
def whole (text : List Char) : Except Refusal (List Char × List Char) := do
  match ← digits text with
  | ('0' :: _ :: _, _) => .error .malformed
  | found => return found

def fraction : List Char → Except Refusal (List Char × List Char)
  | '.' :: rest => digits rest
  | chars => .ok ([], chars)

/-- The sign in front of an exponent: whether it is a minus. -/
def sign : List Char → Bool × List Char
  | '+' :: rest => (false, rest)
  | '-' :: rest => (true, rest)
  | chars => (false, chars)

def exponent : List Char → Except Refusal (Bool × List Char × List Char)
  | c :: rest =>
    if c = 'e' ∨ c = 'E' then do
      let (negative, rest) := sign rest
      let (ds, rest) ← digits rest
      return (negative, ds, rest)
    else .ok (false, [], c :: rest)
  | [] => .ok (false, [], [])

/-- The least number that rounds to no finite double. -/
def tooLarge : Nat := Nat.pow 2 1024 - Nat.pow 2 970

/-- The double nearest to a natural number, as if there were no largest one; a tie goes to the even
mantissa. -/
def nearestDouble (n : Nat) : Nat :=
  let dropped := n.log2 + 1 - 53
  let unit := Nat.pow 2 dropped
  let mantissa := n / unit
  let rest := 2 * (n % unit)
  let up := unit < rest || (rest == unit && mantissa % 2 == 1)
  (if up then mantissa + 1 else mantissa) * unit

/-- Digits put behind a number as long as it stays within 64 bits: the number, how many digits were
put there, and how many were left. -/
def extend (n : Nat) : List Char → Nat × Nat × Nat
  | [] => (n, 0, 0)
  | c :: rest =>
    let m := n * 10 + (Digits.value? c).getD 0
    if UInt64.size ≤ m then (n, 0, rest.length + 1)
    else
      let (k, taken, left) := extend m rest
      (k, taken + 1, left)

/-- A number has a finite value. Its leading digits within 64 bits and its power of ten are rounded
to doubles, and the product must round to a finite one; so close to the largest double a number can
be lost that a double could stand for. -/
def isFinite (whole fraction : List Char) (negative : Bool) (exponent : Nat) : Bool :=
  let (n, _, left) := extend 0 whole
  let (mantissa, places, _) := extend n fraction
  let signed : Int := if negative then -(exponent : Int) else exponent
  let shift := signed + left - places
  if mantissa = 0 ∨ shift < 0 then true
  else if 308 < shift then false
  else nearestDouble mantissa * nearestDouble (Nat.pow 10 shift.toNat) < tooLarge

/-- A number, and what follows it. A number beyond the doubles has no value. -/
def read (text : List Char) : Except Refusal (Option Number × List Char) := do
  let (minus, unsigned) := match text with
    | '-' :: rest => (true, rest)
    | _ => (false, text)
  let (ds, rest) ← whole unsigned
  let (fs, rest) ← fraction rest
  let (negative, es, rest) ← exponent rest
  let number (ds : List Char) : Nat := (Digits.continue? 10 0 ds).getD 0
  let meaning : Number :=
    if !minus && fs.isEmpty && es.isEmpty then natural (number ds)
    else other (text.take (text.length - rest.length))
  let finite := isFinite ds fs negative (number es)
  return (if finite then some meaning else none, rest)

end Number

end LongMode.Json
