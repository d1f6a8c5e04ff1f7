import LongMode.Flags.Json
import LongMode.Json.Printer
import LongMode.Machine
/-!
Saved machines: everything a machine holds, as JSON. The members of every object are in the order of
their names, and memory cells are named by their addresses in decimal. A reader takes the members in
any order.
-/

namespace LongMode

namespace Segment

def toJson (s : Segment) : Json :=
  .object [("name", .text s.name), ("start", .number s.start.toNat), ("end", .number s.stop.toNat)]

structure Draft where
  name : Option String := none
  start : Option UInt64 := none
  stop : Option UInt64 := none

def fields : List (Json.Field Draft) :=
  [.of "name" Draft.name (fun s v => { s with name := v }) Json.Reader.text,
    .of "start" Draft.start (fun s v => { s with start := v }) Json.Reader.word,
    .of "end" Draft.stop (fun s v => { s with stop := v }) Json.Reader.word]

def reader : Json.Reader Segment := fun d => do
  let s ← Json.Reader.record .mismatch fields {} d
  let name ← Json.Reader.required s.name
  let start ← Json.Reader.required s.start
  let stop ← Json.Reader.required s.stop
  return { name, start, stop }

end Segment

namespace Memory

def cellsJson (m : Memory) : Json :=
  .object (m.cells.toList.map fun (a, b) => (toString a.toNat, .number b.toNat))

def toJson (m : Memory) : Json :=
  .object
    [("cells", m.cellsJson), ("segments", Json.ofList Segment.toJson m.segments),
      ("end", .number m.codeEnd.toNat), ("strict", .bool m.strict)]

/-- The address that a cell is named by. -/
def readAddress (name : String) : Except Json.Refusal UInt64 :=
  match name.toList with
  | [] => .error .malformed
  | c :: _ =>
    if c = '-' ∨ Json.Number.isDigit c then do
      match ← Json.Number.read name.toList with
      | (none, _) => .error .malformed
      | (some (.other _), _) => .error .mismatch
      | (some (.natural n), rest) =>
        if UInt64.size ≤ n then .error .mismatch
        else if rest.isEmpty then return UInt64.ofNat n
        else .error .malformed
    else .error .malformed

def fillCells (cells : Std.ExtTreeMap UInt64 UInt8) :
    List (Except Json.Refusal String × Json.Document) →
      Except Json.Refusal (Std.ExtTreeMap UInt64 UInt8)
  | [] => .ok cells
  | (name, d) :: rest => do
    let name ← name
    let a ← readAddress name
    let b ← Json.Reader.byte d
    fillCells (cells.insert a b) rest

def cellsReader : Json.Reader (Std.ExtTreeMap UInt64 UInt8)
  | .object members closing => do
    let cells ← fillCells ∅ members
    Json.Document.closed closing
    return cells
  | d => .error d.otherwise

structure Draft where
  cells : Option (Std.ExtTreeMap UInt64 UInt8) := none
  segments : Option (List Segment) := none
  codeEnd : Option UInt64 := none
  strict : Option Bool := none

def fields : List (Json.Field Draft) :=
  [.of "cells" Draft.cells (fun s v => { s with cells := v }) cellsReader,
    .of "segments" Draft.segments (fun s v => { s with segments := v })
      (Json.Reader.list Segment.reader),
    .of "end" Draft.codeEnd (fun s v => { s with codeEnd := v }) Json.Reader.word,
    .of "strict" Draft.strict (fun s v => { s with strict := v }) Json.Reader.bool]

def reader : Json.Reader Memory := fun d => do
  let s ← Json.Reader.record .mismatch fields {} d
  let cells ← Json.Reader.required s.cells
  let segments ← Json.Reader.required s.segments
  let codeEnd ← Json.Reader.required s.codeEnd
  let strict ← Json.Reader.required s.strict
  return { cells, segments, codeEnd, strict }

end Memory

namespace RegisterFile

def toJson (f : RegisterFile) : Json :=
  .object
    [("slots", Json.ofList (fun v => .number v.toNat) f.slots.toList),
      ("sse", Json.ofList (fun bytes => Json.ofList (fun b => .number b.toNat) bytes.toList)
        f.vectors.toList)]

structure Draft where
  slots : Option (Vector UInt64 32) := none
  vectors : Option (Vector (Vector UInt8 32) 16) := none

def fields : List (Json.Field Draft) :=
  [.of "slots" Draft.slots (fun s v => { s with slots := v })
      (Json.Reader.vector 32 Json.Reader.word),
    .of "sse" Draft.vectors (fun s v => { s with vectors := v })
      (Json.Reader.vector 16 (Json.Reader.vector 32 Json.Reader.byte))]

def reader : Json.Reader RegisterFile := fun d => do
  let s ← Json.Reader.record .mismatch fields {} d
  let slots ← Json.Reader.required s.slots
  let vectors ← Json.Reader.required s.vectors
  return { slots, vectors }

end RegisterFile

namespace Machine

def toJson (m : Machine) : Json :=
  .object
    [("flags", m.flags.toJson), ("memory", m.memory.toJson), ("registers", m.registers.toJson),
      ("instruction_pointer", .number m.ip.toNat),
      ("breakpoints", Json.ofList (fun a => .number a.toNat) m.breakpoints.toList)]

def saved (m : Machine) : Json := m.toJson.sorted

structure Draft where
  flags : Option Flags := none
  memory : Option Memory := none
  registers : Option RegisterFile := none
  ip : Option UInt64 := none
  breakpoints : Option (List UInt64) := none

def fields : List (Json.Field Draft) :=
  [.of "flags" Draft.flags (fun s v => { s with flags := v }) (Flags.reader .mismatch),
    .of "memory" Draft.memory (fun s v => { s with memory := v }) Memory.reader,
    .of "registers" Draft.registers (fun s v => { s with registers := v }) RegisterFile.reader,
    .of "instruction_pointer" Draft.ip (fun s v => { s with ip := v }) Json.Reader.word,
    .of "breakpoints" Draft.breakpoints (fun s v => { s with breakpoints := v })
      (Json.Reader.list Json.Reader.word)]

def reader : Json.Reader Machine := fun d => do
  let s ← Json.Reader.record .mismatch fields {} d
  let flags ← Json.Reader.required s.flags
  let memory ← Json.Reader.required s.memory
  let registers ← Json.Reader.required s.registers
  let ip ← Json.Reader.required s.ip
  let breakpoints ← Json.Reader.required s.breakpoints
  return { flags, memory, registers, ip, breakpoints := .ofList breakpoints }

/-- The document in a text, which is read to its end before anything in it is looked for. -/
def parse (text : String) : Except Json.Refusal Json.Document :=
  Json.Document.readText (fun d => d.inspect 0 *> pure d.canonical) text.toList

def ofText (text : String) : Except Json.Refusal Machine := do
  let d ← parse text
  reader d

end Machine

end LongMode
