import LongMode.Flags.Json
import LongMode.Testcase.Basic
/-!
Testcases as JSON. A number may be a JSON number or a text that `Numeral.readWord` takes, and bytes
may be hexadecimal text or an array. What is not checked may be left out.
-/

namespace LongMode

open Json (Reader Document Refusal)

/-- A word, as a number or as text, with `depth` brackets open around it. -/
def readWord (depth : Nat) : Reader UInt64 := fun d => do
  d.inspect depth
  match d with
  | .text s => (Numeral.readWord s.toList).mapError fun _ => .mismatch
  | _ => Reader.word d

namespace Code

def toJson : Code → Json
  | text s => .text s
  | bytes bs => Json.ofList (fun b => .number b.toNat) bs

def reader (depth : Nat) : Reader Code := fun d => do
  d.inspect depth
  match d with
  | .text s => return text s
  | _ => (Reader.list Reader.byte d).map bytes

end Code

namespace MemoryExpectation

def toJson (e : MemoryExpectation) : Json :=
  .object [("address", .number e.address.toNat), ("bytes", e.bytes.toJson)]

structure Draft where
  address : Option UInt64 := none
  bytes : Option Code := none

def fields : List (Json.Field Draft) :=
  [.of "address" Draft.address (fun s v => { s with address := v }) (readWord 5),
    .of "bytes" Draft.bytes (fun s v => { s with bytes := v }) (Code.reader 5)]

def reader : Reader MemoryExpectation := fun d => do
  let s ← Reader.record .malformed fields {} d
  let address ← Reader.required s.address
  let bytes ← Reader.required s.bytes
  return { address, bytes }

end MemoryExpectation

namespace Checkpoint

def toJson (c : Checkpoint) : Json :=
  .object
    [("address", .number c.address.toNat),
      ("registers", .object (c.registers.map fun (name, v) => (name, .number v.toNat))),
      ("memory", Json.ofList MemoryExpectation.toJson c.memory), ("flags", c.flags.toJson)]

structure Draft where
  address : Option UInt64 := none
  registers : Option (List (String × UInt64)) := none
  memory : Option (List MemoryExpectation) := none
  flags : Option Flags := none

/-- Values by name, in the order of the names; of values with one name the last counts. -/
def registersReader : Reader (List (String × UInt64)) := fun d => do
  let members ← Reader.members (readWord 4) d
  return Document.lastOfName (Json.byName members)

def fields : List (Json.Field Draft) :=
  [.of "address" Draft.address (fun s v => { s with address := v }) (readWord 3),
    .of "registers" Draft.registers (fun s v => { s with registers := v }) registersReader,
    .of "memory" Draft.memory (fun s v => { s with memory := v })
      (Reader.list MemoryExpectation.reader),
    .of "flags" Draft.flags (fun s v => { s with flags := v }) (Flags.reader .malformed)]

def reader : Reader Checkpoint := fun d => do
  let s ← Reader.record .malformed fields {} d
  let address ← Reader.required s.address
  return { address, registers := s.registers.getD [], memory := s.memory.getD []
           flags := s.flags.getD .undefined }

end Checkpoint

namespace Testcase

def toJson (t : Testcase) : Json :=
  .object
    [("name", .text t.name), ("code", t.code.toJson),
      ("checkpoints", Json.ofList Checkpoint.toJson t.checkpoints)]

structure Draft where
  name : Option String := none
  code : Option Code := none
  checkpoints : Option (List Checkpoint) := none

def fields : List (Json.Field Draft) :=
  [.of "name" Draft.name (fun s v => { s with name := v }) Reader.text,
    .of "code" Draft.code (fun s v => { s with code := v }) (Code.reader 1),
    .of "checkpoints" Draft.checkpoints (fun s v => { s with checkpoints := v })
      (Reader.list Checkpoint.reader)]

def reader : Reader Testcase := fun d => do
  let s ← Reader.record .malformed fields {} d
  let name ← Reader.required s.name
  let code ← Reader.required s.code
  return { name, code, checkpoints := s.checkpoints.getD [] }

def ofText (text : String) : Except TestcaseError Testcase := do
  let t ← (Document.readText reader text.toList).mapError .refused
  t.validate
  return t

end Testcase

end LongMode
