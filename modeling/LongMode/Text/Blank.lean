/-!
White space as the Unicode property `White_Space` defines it, and what it does to a text: trimming
and cutting into pieces.
-/

namespace LongMode.Text

/-- The characters with the property `White_Space`. -/
def isBlank (c : Char) : Bool :=
  let n := c.toNat
  (0x09 ≤ n && n ≤ 0x0D) || n == 0x20 || n == 0x85 || n == 0xA0 || n == 0x1680
    || (0x2000 ≤ n && n ≤ 0x200A) || n == 0x2028 || n == 0x2029 || n == 0x202F
    || n == 0x205F || n == 0x3000

def trim (text : List Char) : List Char :=
  ((text.dropWhile isBlank).reverse.dropWhile isBlank).reverse

/-- The pieces between separators, the empty ones too; there is always at least one. -/
def pieces (isSeparator : Char → Bool) : List Char → List (List Char)
  | [] => [[]]
  | c :: rest =>
    if isSeparator c then [] :: pieces isSeparator rest
    else match pieces isSeparator rest with
      | [] => [[c]]
      | first :: others => (c :: first) :: others

/-- ASCII letters in upper case; all other characters stay. -/
def upper (text : List Char) : List Char := text.map Char.toUpper

def lower (text : List Char) : List Char := text.map Char.toLower

end LongMode.Text
