import LongMode.Line.Json
import LongMode.Run
/-!
The outcome of a run as JSON.
-/

namespace LongMode

/-- A value that says which of several kinds it is. -/
def Json.tagged (kind : String) (content : Json) : Json := .object [(kind, content)]

def Fault.toJson : Fault → Json
  | invalidOpcode address opcode =>
    .tagged "InvalidOpcode"
      (.object [("address", .number address.toNat), ("opcode", .number opcode.toNat)])
  | divideError address => .tagged "DivideError" (.object [("address", .number address.toNat)])
  | unmappedMemory address =>
    .tagged "UnmappedMemory" (.object [("address", .number address.toNat)])

def StopReason.toJson : StopReason → Json
  | step => .text "Step"
  | breakpoint address => .tagged "Breakpoint" (.number address.toNat)
  | endOfCode => .text "EndOfCode"
  | fault f => .tagged "Fault" f.toJson
  | misuse u => .tagged "Misuse" (Json.ofOption .text u.message?)

def Status.toJson (s : Status) : Json :=
  .object
    [("decoded_lines", Json.ofList Line.toJson s.lines),
      ("final_instruction_pointer", .number s.ip.toNat), ("stop", s.stop.toJson),
      ("executed", .number s.executed), ("invalid_opcode", Json.ofOption Fault.toJson s.invalidOpcode)]

end LongMode
