import LongMode.Flags
import LongMode.Json.Record
/-!
Flags as JSON: an object of booleans, null where a flag is undefined. A flag that is left out is
undefined.
-/

namespace LongMode.Flags

def memberNames : List String :=
  ["carry", "auxiliary", "overflow", "zero", "sign", "parity", "direction", "interrupt"]

def toJson (f : Flags) : Json :=
  .object (memberNames.zip (f.toList.map (Json.ofOption .bool)))

abbrev Draft := List (String × Option Bool)

def field (name : String) : Json.Field Draft :=
  .of name (·.lookup name) (fun s value => (name, value) :: s) (Json.Reader.option Json.Reader.bool)

def ofDraft (s : Draft) : Flags :=
  let flag (name : String) : Option Bool := (s.lookup name).join
  { carry := flag "carry", auxiliary := flag "auxiliary", overflow := flag "overflow"
    zero := flag "zero", sign := flag "sign", parity := flag "parity"
    direction := flag "direction", interrupt := flag "interrupt" }

def reader (surplus : Json.Refusal) : Json.Reader Flags := fun d => do
  let s ← Json.Reader.record surplus (memberNames.map field) [] d
  return ofDraft s

end LongMode.Flags
