/-!
JSON values, as far as this library writes them: a number is a natural number. Texts are compared by
code point, which is also the order of their bytes.
-/

namespace LongMode

inductive Json where
  | null
  | bool (b : Bool)
  | number (n : Nat)
  | text (s : String)
  | array (items : List Json)
  | object (members : List (String × Json))

namespace Json

instance : Inhabited Json := ⟨null⟩

def ofOption {α : Type} (write : α → Json) : Option α → Json
  | some x => write x
  | none => null

def ofList {α : Type} (write : α → Json) (xs : List α) : Json := array (xs.map write)

def byName {α : Type} (members : List (String × α)) : List (String × α) :=
  members.mergeSort fun a b => decide (a.1 ≤ b.1)

mutual

/-- The same value with the members of every object in the order of their names. -/
def sorted : Json → Json
  | array items => array (sortedItems items)
  | object members => object (byName (sortedMembers members))
  | j => j

def sortedItems : List Json → List Json
  | [] => []
  | j :: rest => j.sorted :: sortedItems rest

def sortedMembers : List (String × Json) → List (String × Json)
  | [] => []
  | (name, j) :: rest => (name, j.sorted) :: sortedMembers rest

end

end Json

end LongMode
