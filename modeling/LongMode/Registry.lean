import LongMode.Run
import LongMode.Text.Graphic
/-!
Registered machines. A handle names one machine of a registry and says how it is driven. Handles are
numbered from one in the order of registration and are never given back. Only one handle at a time
holds the engine.
-/

namespace LongMode

structure Handle where
  name : String
  id : Nat
  settings : Settings
deriving DecidableEq, Repr

/-- For instance `#1`. -/
def handleText (id : Nat) : String := "#" ++ toString id

namespace Settings

def describe (s : Settings) : String := "HandleSettings(" ++ toString s.bits ++ ")"

end Settings

def describeChar (c : Char) : String :=
  if c = '"' then "\\\""
  else if c = '\\' then "\\\\"
  else if c = '\n' then "\\n"
  else if c = '\r' then "\\r"
  else if c = '\t' then "\\t"
  else if c.toNat = 0 then "\\0"
  else if !Text.isGraphic c then
    "\\u\x7b" ++ String.ofList (Digits.lowerHex c.toNat) ++ "\x7d"
  else c.toString

def describeName (name : String) : String :=
  "\"" ++ String.join (name.toList.map describeChar) ++ "\""

def Handle.describe (h : Handle) : String :=
  "Handle \x7b name: " ++ describeName h.name ++ ", id: HandleId(" ++ toString h.id ++
    "), settings: " ++ h.settings.describe ++ " \x7d"

structure Registry where
  /-- The machine of handle `n + 1` is at `n`. -/
  machines : Array Machine
  /-- The handle that holds the engine. -/
  owner : Option Nat

namespace Registry

def empty : Registry := ⟨#[], none⟩

instance : Inhabited Registry := ⟨empty⟩

def size (r : Registry) : Nat := r.machines.size

def register (r : Registry) (name : String) (m : Machine) (settings : Settings) :
    Handle × Registry :=
  (⟨name, r.size + 1, settings⟩, { r with machines := r.machines.push m })

def machine? (r : Registry) (id : Nat) : Option Machine :=
  match id with
  | 0 => none
  | n + 1 => r.machines[n]?

def put (r : Registry) (id : Nat) (m : Machine) : Registry :=
  { r with machines := r.machines.setIfInBounds (id - 1) m }

def isBusy (r : Registry) (h : Handle) : Bool := r.owner == some h.id

def acquire (r : Registry) (h : Handle) : Registry := { r with owner := some h.id }

def release (r : Registry) : Registry := { r with owner := none }

end Registry

end LongMode
