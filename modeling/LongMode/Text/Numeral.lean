import LongMode.Text.Digits
import LongMode.Text.Blank
/-!
Numbers and machine code as people write them. A number is decimal, or hexadecimal behind `0x`,
and may hold underscores. Machine code is pairs of hexadecimal digits, run together or separated
by blanks and commas, each group with or without a `0x` in front.
-/

namespace LongMode

inductive NumeralError where
  /-- A group of digits that does not split into pairs. -/
  | oddDigits (token : String)
  /-- Two bytes of a group that are not a pair of digits. -/
  | badPair (pair token : String)
  /-- A pair that would cut a character of the group in two. -/
  | cutCharacter (token : String)
  | notANumber (text : String)
deriving DecidableEq, Repr

def NumeralError.message : NumeralError → String
  | oddDigits token => "Invalid hex: odd number of digits in '" ++ token ++ "'"
  | badPair pair token => "Invalid hex: '" ++ pair ++ "' in '" ++ token ++ "'"
  | cutCharacter token => "Invalid hex: " ++ token
  | notANumber text => "Invalid hex: '" ++ text ++ "' is not a number"

namespace Numeral

def afterMarker? : List Char → Option (List Char)
  | '0' :: 'x' :: rest => some rest
  | '0' :: 'X' :: rest => some rest
  | _ => none

/-- A 64-bit number, decimal or behind `0x` hexadecimal. -/
def readWord (text : List Char) : Except NumeralError UInt64 :=
  let body := Text.trim text
  let number? := match afterMarker? body with
    | some digits => Digits.read? 16 UInt64.size (digits.filter (· != '_'))
    | none => Digits.read? 10 UInt64.size (body.filter (· != '_'))
  match number? with
  | some n => .ok (UInt64.ofNat n)
  | none => .error (.notANumber (String.ofList body))

def byteLength (text : List Char) : Nat := (String.ofList text).utf8ByteSize

/-- The bytes of one group, whose length in bytes is even. -/
def readPairs (token : String) : List Char → Except NumeralError (List UInt8)
  | [] => .ok []
  | [c] => if c.utf8Size = 2 then .error (.badPair c.toString token) else .error (.cutCharacter token)
  | c :: d :: rest =>
    if c.utf8Size = 2 then .error (.badPair c.toString token)
    else if c.utf8Size ≠ 1 ∨ d.utf8Size ≠ 1 then .error (.cutCharacter token)
    else match Digits.read? 16 256 [c, d] with
      | none => .error (.badPair (String.ofList [c, d]) token)
      | some n => do
        let bytes ← readPairs token rest
        return UInt8.ofNat n :: bytes

def readToken (token : List Char) : Except NumeralError (List UInt8) :=
  let digits := (afterMarker? token).getD token
  if byteLength digits % 2 ≠ 0 then .error (.oddDigits (String.ofList token))
  else readPairs (String.ofList token) digits

def isSeparator (c : Char) : Bool := Text.isBlank c || c == ','

def readTokens : List (List Char) → Except NumeralError (List UInt8)
  | [] => .ok []
  | token :: rest => do
    let first ← readToken token
    let others ← readTokens rest
    return first ++ others

def readCode (text : List Char) : Except NumeralError (List UInt8) :=
  readTokens (Text.pieces isSeparator text)

end Numeral

end LongMode
