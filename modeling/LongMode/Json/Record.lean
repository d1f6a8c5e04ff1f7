import LongMode.Json.Document
/-!
Readers for documents of a known shape. Each looks at the parts of a document in the order of the
text, so that of several faults the first one is reported.
-/

namespace LongMode.Json

/-- What a document says to somebody who knows what to expect. -/
abbrev Reader (α : Type) := Document → Except Refusal α

namespace Reader

def text : Reader String
  | .text s => .ok s
  | d => .error d.otherwise

def bool : Reader Bool
  | .bool b => .ok b
  | d => .error d.otherwise

def natural (bound : Nat) : Reader Nat
  | .number (.natural n) => if n < bound then .ok n else .error .mismatch
  | d => .error d.otherwise

def word : Reader UInt64 := fun d => (natural UInt64.size d).map UInt64.ofNat

def byte : Reader UInt8 := fun d => (natural 256 d).map UInt8.ofNat

def option {α : Type} (reader : Reader α) : Reader (Option α)
  | .null => .ok none
  | d => (reader d).map some

def each {α : Type} (reader : Reader α) : List Document → Except Refusal (List α)
  | [] => .ok []
  | d :: rest => do
    let x ← reader d
    let xs ← each reader rest
    return x :: xs

def list {α : Type} (reader : Reader α) : Reader (List α)
  | .array items closing => do
    let xs ← each reader items
    Document.closed closing
    return xs
  | d => .error d.otherwise

def vector {α : Type} (n : Nat) (reader : Reader α) : Reader (Vector α n) := fun d => do
  let xs ← list reader d
  if h : xs.length = n then return ⟨xs.toArray, by simpa using h⟩ else .error .mismatch

def eachNamed {α : Type} (reader : Reader α) :
    List (Except Refusal String × Document) → Except Refusal (List (String × α))
  | [] => .ok []
  | (name, d) :: rest => do
    let name ← name
    let x ← reader d
    let xs ← eachNamed reader rest
    return (name, x) :: xs

/-- An object with any names: its members as they stand. -/
def members {α : Type} (reader : Reader α) : Reader (List (String × α))
  | .object ms closing => do
    let xs ← eachNamed reader ms
    Document.closed closing
    return xs
  | d => .error d.otherwise

end Reader

/-- One field of a record that is filled in step by step. -/
structure Field (σ : Type) where
  name : String
  /-- The field has been filled in. -/
  isSet : σ → Bool
  fill : σ → Reader σ

namespace Field

def of {σ α : Type} (name : String) (get : σ → Option α) (set : σ → α → σ) (reader : Reader α) :
    Field σ where
  name
  isSet s := (get s).isSome
  fill s d := (reader d).map (set s)

end Field

namespace Reader

/-- Fields by name. No field may come twice; members that are no fields are passed over. -/
def fillNamed {σ : Type} (fields : List (Field σ)) :
    σ → List (Except Refusal String × Document) → Except Refusal σ
  | s, [] => .ok s
  | s, (name, d) :: rest => do
    let name ← name
    match fields.find? (·.name == name) with
    | none =>
      d.skip
      fillNamed fields s rest
    | some field =>
      if field.isSet s then .error .mismatch
      else
        let t ← field.fill s d
        fillNamed fields t rest

/-- Fields by position. `surplus` is the answer to items behind the last field. -/
def fillInOrder {σ : Type} (surplus : Refusal) :
    List (Field σ) → σ → List Document → Except Refusal σ
  | _, s, [] => .ok s
  | [], _, _ :: _ => .error surplus
  | field :: fields, s, d :: rest => do
    let t ← field.fill s d
    fillInOrder surplus fields t rest

/-- A record, written as an object or as an array of its fields. Fields may be left out; whether
that will do is for the caller to say. -/
def record {σ : Type} (surplus : Refusal) (fields : List (Field σ)) (blank : σ) : Reader σ
  | .object members closing => do
    let s ← fillNamed fields blank members
    Document.closed closing
    return s
  | .array items closing => do
    let s ← fillInOrder surplus fields blank items
    Document.closed closing
    return s
  | d => .error d.otherwise

def required {α : Type} : Option α → Except Refusal α
  | some x => .ok x
  | none => .error .mismatch

end Reader

end LongMode.Json
