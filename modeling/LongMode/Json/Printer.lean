import LongMode.Json.Basic
import LongMode.Json.Quoted
/-!
JSON values as text: without any blanks, or with each item and member on a line of its own.
-/

namespace LongMode.Json

def quoted (s : String) : List Char := Quoted.encode s.toList

def atom : Json → List Char
  | null => "null".toList
  | bool true => "true".toList
  | bool false => "false".toList
  | number n => Nat.toDigits 10 n
  | text s => quoted s
  | array _ => ['[', ']']
  | object _ => ['\x7b', '\x7d']

mutual

/-- The value on one line and without blanks. -/
def compactChars : Json → List Char
  | array items => '[' :: compactItems items
  | object members => '\x7b' :: compactMembers members
  | j => j.atom

def compactItems : List Json → List Char
  | [] => [']']
  | [j] => j.compactChars ++ [']']
  | j :: rest => j.compactChars ++ ',' :: compactItems rest

def compactMembers : List (String × Json) → List Char
  | [] => ['\x7d']
  | [(name, j)] => quoted name ++ ':' :: j.compactChars ++ ['\x7d']
  | (name, j) :: rest => quoted name ++ ':' :: j.compactChars ++ ',' :: compactMembers rest

end

def compact (j : Json) : String := String.ofList j.compactChars

def newLine (depth : Nat) : List Char := '\n' :: List.replicate (2 * depth) ' '

mutual

/-- The value over several lines, as it stands at a depth. -/
def prettyChars (depth : Nat) : Json → List Char
  | array (j :: rest) => '[' :: prettyItems (depth + 1) (j :: rest) ++ newLine depth ++ [']']
  | object (m :: rest) =>
    '\x7b' :: prettyMembers (depth + 1) (m :: rest) ++ newLine depth ++ ['\x7d']
  | j => j.atom

def prettyItems (depth : Nat) : List Json → List Char
  | [] => []
  | [j] => newLine depth ++ j.prettyChars depth
  | j :: rest => newLine depth ++ j.prettyChars depth ++ ',' :: prettyItems depth rest

def prettyMembers (depth : Nat) : List (String × Json) → List Char
  | [] => []
  | [(name, j)] => newLine depth ++ quoted name ++ ':' :: ' ' :: j.prettyChars depth
  | (name, j) :: rest =>
    newLine depth ++ quoted name ++ ':' :: ' ' :: j.prettyChars depth ++ ',' :: prettyMembers depth rest

end

def pretty (j : Json) : String := String.ofList (j.prettyChars 0)

end LongMode.Json
