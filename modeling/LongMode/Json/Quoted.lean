import LongMode.Text.Numeral
/-!
Texts in double quotes. A writer escapes what has to be escaped and nothing else. A reader takes
every escape; characters outside the basic plane are escaped as pairs of surrogates, and a surrogate
alone stands for no character. A text that is only passed over may hold one.
-/

namespace LongMode.Json

inductive Refusal where
  /-- The text is not JSON. -/
  | malformed
  /-- The text ends too early. -/
  | truncated
  /-- The text is JSON, but does not say what it should. -/
  | mismatch
deriving DecidableEq, Repr

def Refusal.message : Refusal → String
  | malformed => "the text is not JSON"
  | truncated => "the text ends too early"
  | mismatch => "the text does not say what it should"

namespace Quoted

def escape (c : Char) : List Char :=
  if c = '"' then ['\\', '"']
  else if c = '\\' then ['\\', '\\']
  else if c = '\x08' then ['\\', 'b']
  else if c = '\x0c' then ['\\', 'f']
  else if c = '\n' then ['\\', 'n']
  else if c = '\r' then ['\\', 'r']
  else if c = '\t' then ['\\', 't']
  else if c.toNat < 0x20 then '\\' :: 'u' :: Digits.padded 4 (Digits.lowerHex c.toNat)
  else [c]

def encode (text : List Char) : List Char := '"' :: (text.flatMap escape ++ ['"'])

def letter? : Char → Option Char
  | '"' => some '"'
  | '\\' => some '\\'
  | '/' => some '/'
  | 'b' => some '\x08'
  | 'f' => some '\x0c'
  | 'n' => some '\n'
  | 'r' => some '\r'
  | 't' => some '\t'
  | _ => none

/-- Four hexadecimal digits. Where fewer than four bytes are left, the text has ended. -/
def quad (text : List Char) : Except Refusal (Nat × List Char) :=
  if Numeral.byteLength (text.take 4) < 4 then .error .truncated
  else match text with
    | a :: b :: c :: d :: rest =>
      match Digits.continue? 16 0 [a, b, c, d] with
      | some n => .ok (n, rest)
      | none => .error .malformed
    | _ => .error .malformed

def isLeading (n : Nat) : Bool := 0xD800 ≤ n && n ≤ 0xDBFF

def isTrailing (n : Nat) : Bool := 0xDC00 ≤ n && n ≤ 0xDFFF

/-- The second half of a pair of surrogates. -/
def trailing (leading : Nat) : List Char → Except Refusal (Char × List Char)
  | [] => .error .truncated
  | ['\\'] => .error .truncated
  | '\\' :: 'u' :: rest => do
    let (n, rest) ← quad rest
    if isTrailing n then
      return (Char.ofNat (0x10000 + (leading - 0xD800) * 0x400 + (n - 0xDC00)), rest)
    else .error .malformed
  | _ => .error .malformed

def unescape : List Char → Except Refusal (Char × List Char)
  | [] => .error .truncated
  | 'u' :: rest => do
    let (n, rest) ← quad rest
    if isTrailing n then .error .malformed
    else if isLeading n then trailing n rest
    else return (Char.ofNat n, rest)
  | c :: rest =>
    match letter? c with
    | some d => .ok (d, rest)
    | none => .error .malformed

def next : List Char → Except Refusal (Char × List Char)
  | [] => .error .truncated
  | '\\' :: rest => unescape rest
  | c :: rest => if c.toNat < 0x20 then .error .malformed else .ok (c, rest)

/-- At most `count` characters up to the closing quote, and what follows it. -/
def readUpTo : Nat → List Char → Except Refusal (List Char × List Char)
  | _, '"' :: rest => .ok ([], rest)
  | 0, _ => .error .truncated
  | count + 1, chars => do
    let (c, rest) ← next chars
    let (cs, rest) ← readUpTo count rest
    return (c :: cs, rest)

def read (text : List Char) : Except Refusal (List Char × List Char) := readUpTo text.length text

/-- What follows an escape that need not stand for a character. -/
def skipEscape : List Char → Except Refusal (List Char)
  | [] => .error .truncated
  | 'u' :: rest => (quad rest).map Prod.snd
  | c :: rest => if (letter? c).isSome then .ok rest else .error .malformed

def skipUpTo : Nat → List Char → Except Refusal (List Char)
  | _, '"' :: rest => .ok rest
  | 0, _ => .error .truncated
  | _ + 1, [] => .error .truncated
  | count + 1, '\\' :: rest => do
    let rest ← skipEscape rest
    skipUpTo count rest
  | count + 1, c :: rest => if c.toNat < 0x20 then .error .malformed else skipUpTo count rest

/-- What follows the closing quote of a text that is passed over. -/
def skip (text : List Char) : Except Refusal (List Char) := skipUpTo text.length text

end Quoted

end LongMode.Json
