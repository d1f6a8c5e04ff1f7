import LongMode.Json.Number
import LongMode.Json.Basic
/-!
JSON texts as they are read. A document keeps the flaws of its text where they occur: what a reader
is told depends on whether it looks at the flawed part, passes over it, or turns away before it.
-/

namespace LongMode.Json

structure Flaw where
  /-- The answer to a reader that wants to know the part. -/
  read : Refusal
  /-- The answer to a reader that passes over the part, unless that does no harm. -/
  skip : Option Refusal
deriving DecidableEq, Repr

namespace Flaw

/-- A flaw that nobody gets past. -/
def fatal (r : Refusal) : Flaw := ⟨r, some r⟩

/-- A flaw that only those notice who want to know the part. -/
def hidden (r : Refusal) : Flaw := ⟨r, none⟩

end Flaw

inductive Document where
  | null
  | bool (b : Bool)
  | number (n : Number)
  | text (s : String)
  /-- The items, and the flaw that takes the place of the closing bracket. -/
  | array (items : List Document) (closing : Option Flaw)
  /-- The members, and the flaw that takes the place of the closing brace. -/
  | object (members : List (Except Refusal String × Document)) (closing : Option Flaw)
  | broken (flaw : Flaw)

namespace Document

instance : Inhabited Document := ⟨null⟩

/-- The answer to a reader that wants something else than there is. -/
def otherwise : Document → Refusal
  | broken f => f.read
  | _ => .mismatch

/-- The answer of a closing bracket to a reader. -/
def closed : Option Flaw → Except Refusal Unit
  | some f => .error f.read
  | none => .ok ()

def passed : Option Flaw → Except Refusal Unit
  | some ⟨_, some r⟩ => .error r
  | _ => .ok ()

mutual

def skip : Document → Except Refusal Unit
  | array items closing => do
    skipItems items
    passed closing
  | object members closing => do
    skipMembers members
    passed closing
  | broken f => passed (some f)
  | _ => .ok ()

def skipItems : List Document → Except Refusal Unit
  | [] => .ok ()
  | d :: rest => do
    d.skip
    skipItems rest

def skipMembers : List (Except Refusal String × Document) → Except Refusal Unit
  | [] => .ok ()
  | (_, d) :: rest => do
    d.skip
    skipMembers rest

end

/-- How many brackets may be open in a document that is read as it is. -/
def maxDepth : Nat := 127

mutual

/-- Every part of a document looked at, `depth` brackets being open around it. -/
def inspect (depth : Nat) : Document → Except Refusal Unit
  | array items closing =>
    if depth < maxDepth then do
      inspectItems (depth + 1) items
      closed closing
    else .error .malformed
  | object members closing =>
    if depth < maxDepth then do
      inspectMembers (depth + 1) members
      closed closing
    else .error .malformed
  | broken f => .error f.read
  | _ => .ok ()

def inspectItems (depth : Nat) : List Document → Except Refusal Unit
  | [] => .ok ()
  | d :: rest => do
    d.inspect depth
    inspectItems depth rest

def inspectMembers (depth : Nat) :
    List (Except Refusal String × Document) → Except Refusal Unit
  | [] => .ok ()
  | (name, d) :: rest => do
    let _ ← name
    d.inspect depth
    inspectMembers depth rest

end

/-- Of neighbours with the same name, the last one. -/
def lastOfName {α : Type} : List (String × α) → List (String × α)
  | a :: b :: rest => if a.1 = b.1 then lastOfName (b :: rest) else a :: lastOfName (b :: rest)
  | short => short

mutual

/-- The same document with the members of every object in the order of their names, and of members
with one name only the last. -/
def canonical : Document → Document
  | array items closing => array (canonicalItems items) closing
  | object members closing =>
    let named := lastOfName (byName (canonicalMembers members))
    object (named.map fun (name, d) => (.ok name, d)) closing
  | d => d

def canonicalItems : List Document → List Document
  | [] => []
  | d :: rest => d.canonical :: canonicalItems rest

def canonicalMembers : List (Except Refusal String × Document) → List (String × Document)
  | [] => []
  | (.ok name, d) :: rest => (name, d.canonical) :: canonicalMembers rest
  | (.error _, _) :: rest => canonicalMembers rest

end

end Document

/-! Reading a text. Next to the document stands the text behind it, unless a flaw keeps the reading
from going on. -/

namespace Document

def isBlank (c : Char) : Bool := c == ' ' || c == '\n' || c == '\t' || c == '\r'

def skipBlanks (cs : List Char) : List Char := cs.dropWhile isBlank

def word (d : Document) : List Char → List Char → Document × Option (List Char)
  | [], cs => (d, some cs)
  | _ :: _, [] => (broken (.fatal .truncated), none)
  | c :: letters, e :: cs =>
    if c = e then word d letters cs else (broken (.fatal .malformed), none)

def ofQuoted (cs : List Char) : Document × Option (List Char) :=
  match Quoted.read cs, Quoted.skip cs with
  | .ok (s, rest), _ => (Document.text (String.ofList s), some rest)
  | .error r, .ok rest => (broken (.hidden r), some rest)
  | .error r, .error skipped => (broken ⟨r, some skipped⟩, none)

def ofNumber (cs : List Char) : Document × Option (List Char) :=
  match Number.read cs with
  | .ok (some n, rest) => (number n, some rest)
  | .ok (none, rest) => (broken (.hidden .malformed), some rest)
  | .error r => (broken ⟨r, some .malformed⟩, none)

/-- A member's name behind its opening quote: the name and what follows it, or a flaw. -/
def ofName (cs : List Char) : Except Flaw (Except Refusal String × List Char) :=
  match Quoted.read cs, Quoted.skip cs with
  | .ok (s, rest), _ => .ok (.ok (String.ofList s), rest)
  | .error r, .ok rest => .ok (.error r, rest)
  | .error r, .error skipped => .error ⟨r, some skipped⟩

/-- The end of a text, or a character that does not belong there. -/
def unexpected : List Char → Flaw
  | [] => .fatal .truncated
  | _ :: _ => .fatal .malformed

mutual

/-- The document at the front of a text. -/
def value : Nat → List Char → Document × Option (List Char)
  | 0, _ => (broken (.fatal .truncated), none)
  | fuel + 1, cs =>
    match skipBlanks cs with
    | 'n' :: rest => word null ['u', 'l', 'l'] rest
    | 't' :: rest => word (bool true) ['r', 'u', 'e'] rest
    | 'f' :: rest => word (bool false) ['a', 'l', 's', 'e'] rest
    | '"' :: rest => ofQuoted rest
    | '[' :: rest =>
      let (items, closing, after) := items fuel true rest
      (array items closing, after)
    | '\x7b' :: rest =>
      let (members, closing, after) := members fuel true rest
      (object members closing, after)
    | c :: rest =>
      if c = '-' ∨ Number.isDigit c then ofNumber (c :: rest)
      else (broken (.fatal .malformed), none)
    | [] => (broken (.fatal .truncated), none)

def items : Nat → Bool → List Char → List Document × Option Flaw × Option (List Char)
  | 0, _, _ => ([], some (.fatal .truncated), none)
  | fuel + 1, first, cs =>
    match first, skipBlanks cs with
    | _, ']' :: rest => ([], none, some rest)
    | false, ',' :: rest => item fuel rest
    | true, c :: rest => item fuel (c :: rest)
    | _, rest => ([], some (unexpected rest), none)

def item : Nat → List Char → List Document × Option Flaw × Option (List Char)
  | 0, _ => ([], some (.fatal .truncated), none)
  | fuel + 1, cs =>
    match value fuel cs with
    | (d, none) => ([d], none, none)
    | (d, some rest) =>
      let (others, closing, after) := items fuel false rest
      (d :: others, closing, after)

def members : Nat → Bool → List Char →
    List (Except Refusal String × Document) × Option Flaw × Option (List Char)
  | 0, _, _ => ([], some (.fatal .truncated), none)
  | fuel + 1, first, cs =>
    match first, skipBlanks cs with
    | _, '\x7d' :: rest => ([], none, some rest)
    | false, ',' :: rest => member fuel (skipBlanks rest)
    | true, c :: rest => member fuel (c :: rest)
    | _, rest => ([], some (unexpected rest), none)

def member : Nat → List Char →
    List (Except Refusal String × Document) × Option Flaw × Option (List Char)
  | 0, _ => ([], some (.fatal .truncated), none)
  | fuel + 1, cs =>
    match cs with
    | '"' :: rest =>
      match ofName rest with
      | .error flaw => ([], some flaw, none)
      | .ok (name, rest) =>
        match skipBlanks rest with
        | ':' :: rest =>
          match value fuel rest with
          | (d, none) => ([(name, d)], none, none)
          | (d, some rest) =>
            let (others, closing, after) := members fuel false rest
            ((name, d) :: others, closing, after)
        | rest => ([(name, broken (unexpected rest))], none, none)
    | rest => ([], some (unexpected rest), none)

end

/-- Enough for any text: of three readers one inside the other, at least one takes a character. -/
def fuel (cs : List Char) : Nat := 3 * cs.length + 3

/-- A whole text as a document and what follows it. -/
def ofText (cs : List Char) : Document × Option (List Char) := value (fuel cs) cs

/-- What a reader finds in a text that holds one document and nothing else. -/
def readText {α : Type} (reader : Document → Except Refusal α) (cs : List Char) :
    Except Refusal α :=
  let (d, after) := ofText cs
  match reader d with
  | .error r => .error r
  | .ok x =>
    match after.map skipBlanks with
    | some (_ :: _) => .error .malformed
    | _ => .ok x

end Document

end LongMode.Json
