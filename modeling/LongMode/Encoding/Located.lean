import LongMode.Encoding.Opcodes
/-!
One instruction in memory: the modifiers, the opcode, the instruction that they encode, and where it
ends.
-/

namespace LongMode

structure Located where
  start : UInt64
  modifiers : Modifiers
  map : OpcodeMap
  opcode : UInt8
  /-- The instruction, if the opcode map has one. -/
  instruction : Option Instruction
  /-- The first byte after the encoding. -/
  next : UInt64
deriving DecidableEq, Repr

namespace Located

/-- The byte that leads to the two-byte map. -/
def escape : UInt8 := 0x0F

def opcode? : Decoder (OpcodeMap × UInt8) := do
  let byte ← Decoder.fetch
  if byte = escape then
    let second ← Decoder.fetch
    return (.twoByte, second)
  else return (.oneByte, byte)

def body (mods : Modifiers) : Decoder (OpcodeMap × UInt8 × Option Instruction) := do
  let (map, opcode) ← opcode?
  let instruction ← map.decode mods opcode
  return (map, opcode, instruction)

def at? (fetch : Fetch) (start : UInt64) : Except Halt Located :=
  let (modifiers, a) := Modifiers.leading fetch start
  match body modifiers fetch a with
  | .ok ((map, opcode, instruction), next) =>
    .ok { start, modifiers, map, opcode, instruction, next }
  | .error h => .error h

def length (l : Located) : UInt64 := l.next - l.start

end Located

end LongMode
