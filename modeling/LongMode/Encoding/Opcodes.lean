import LongMode.Encoding.ModRm
import LongMode.Instruction.Basic
/-!
The opcode maps: the one-byte map, and the two-byte map behind the escape byte `0F`. Where the
register field of the ModRM byte selects the operation, it is looked at before the ModRM byte is
read; so an encoding without an entry there ends in front of that byte.
-/

namespace LongMode

inductive OpcodeMap where
  | oneByte
  | twoByte
deriving DecidableEq, Repr

def OpcodeMap.name : OpcodeMap → String
  | oneByte => "OneByte"
  | twoByte => "TwoByte"

namespace Opcodes

/-! Operand shapes. -/

def modRmPair (mods : Modifiers) (form : Form) : Decoder (Operand × Operand) := do
  let w := mods.operandWidth form.byteSized
  let m ← ModRm.decode mods w w form
  Decoder.ofExcept (Parts.pair form [.modRm m])

/-- The ModRM operand where the register field selects the operation. -/
def modRmOperand (mods : Modifiers) (w : Width) : Decoder Operand := do
  let m ← ModRm.decode mods w w { extended := true }
  return m.destination

def modRmImmediate (mods : Modifiers) (form : Form) : Decoder (Operand × Operand) := do
  let form := { form with extended := true }
  let w := mods.operandWidth form.byteSized
  let m ← ModRm.decode mods w w form
  let i ← Immediate.decode w form
  Decoder.ofExcept (Parts.pair form [.modRm m, .immediate i])

def accumulatorImmediate (mods : Modifiers) (form : Form) : Decoder (Operand × Operand) := do
  let w := mods.operandWidth form.byteSized
  let i ← Immediate.decode w form
  Decoder.ofExcept (Parts.pair form [.register (.accumulator w), .immediate i])

def widening (mods : Modifiers) (rmWidth : Width) (signed : Bool) : Decoder Instruction := do
  let m ← ModRm.decode mods rmWidth (mods.operandWidth false) {}
  let (dst, src) ← Decoder.ofExcept (Parts.pair { swapped := true } [.modRm m])
  return .moveExtend signed dst src

/-- The register in the low three bits of an opcode. -/
def opcodeRegister (mods : Modifiers) (opcode : Nat) (w : Width) : Register :=
  ⟨.general, extendField mods.bits.base opcode, w, mods.rex.isSome⟩

def branchTarget (short : Bool) : Decoder Operand := do
  let i ← Immediate.decode .dword { relative := true, shortImmediate := short }
  return .immediate i

def stringOp (mods : Modifiers) (kind : StringKind) (byteSized : Bool) : Instruction :=
  .string
    { kind, width := mods.operandWidth byteSized, pointerWidth := mods.addressWidth
      repetition := mods.repetition, segment := mods.segment }

/-- The register field of the ModRM byte ahead. -/
def groupIndex : Decoder Nat := do
  let byte ← Decoder.peek
  return byte.toNat / 8 % 8

/-! Opcodes of one shape. In most pairs of opcodes the even one is for bytes. -/

def isByte (opcode : Nat) : Bool := opcode % 2 = 0

/-- The six forms of a classic operation, `00` to `3D`. -/
def classic (mods : Modifiers) (opcode : Nat) : Decoder Instruction := do
  let form : Form := { byteSized := isByte opcode }
  let (dst, src) ← match opcode % 8 with
    | 0 | 1 => modRmPair mods form
    | 2 | 3 => modRmPair mods { form with swapped := true }
    | _ => accumulatorImmediate mods form
  return .binary (.ofIndex (opcode / 8)) dst src

/-- The group `80`, `81` and `83`: a classic operation on an operand and an immediate. -/
def immediateGroup (mods : Modifiers) (opcode : Nat) : Decoder Instruction := do
  let op := BinaryOp.ofIndex (← groupIndex)
  let (dst, src) ← modRmImmediate mods
    { byteSized := opcode = 0x80, shortImmediate := opcode = 0x83 }
  return .binary op dst src

/-- The product of an operand and an immediate, `69` and `6B`. -/
def productImmediate (mods : Modifiers) (opcode : Nat) : Decoder Instruction := do
  let w := mods.operandWidth false
  let m ← ModRm.decode mods w w {}
  let i ← Immediate.decode w { shortImmediate := opcode = 0x6B }
  let (dst, src) ← Decoder.ofExcept (Parts.pair { swapped := true } [.modRm m])
  return .multiplyInto dst src (some (.immediate i))

/-- The address of a memory operand; a register has none. -/
def addressOf (mods : Modifiers) : Decoder (Option Instruction) := do
  let w := mods.operandWidth false
  let m ← ModRm.decode mods w w {}
  match m.destination, m.source with
  | .memory p, some dst => return some (.loadAddress dst p)
  | _, _ => return none

/-- A group of which only the member 0 is an instruction. -/
def memberZero (member : Decoder Instruction) : Decoder (Option Instruction) := do
  if (← groupIndex) = 0 then some <$> member else return none

def popOperand (mods : Modifiers) : Decoder Instruction := do
  let target ← modRmOperand mods mods.stackWidth
  return .pop target

def moveImmediate (mods : Modifiers) (opcode : Nat) : Decoder Instruction := do
  let (dst, src) ← modRmImmediate mods { byteSized := isByte opcode }
  return .move dst src

/-- The shift group: by an immediate, by one, or by `CL`. -/
def shiftGroup (mods : Modifiers) (opcode : Nat) : Decoder Instruction := do
  let op := ShiftOp.ofIndex (← groupIndex)
  let target ← modRmOperand mods (mods.operandWidth (isByte opcode))
  if opcode < 0xD0 then
    let i ← Immediate.decode .byte {}
    return .shift op target (.immediate i)
  else if opcode < 0xD2 then
    return .shift op target (.immediate { value := 1, width := .byte, relative := false })
  else
    return .shift op target (.register (.counter .byte))

/-- The group `F6` and `F7`. -/
def unaryGroup (mods : Modifiers) (opcode : Nat) : Decoder Instruction := do
  let form : Form := { byteSized := isByte opcode }
  let index ← groupIndex
  if index < 2 then
    let (dst, src) ← modRmImmediate mods form
    return .test dst src
  else
    let target ← modRmOperand mods (mods.operandWidth form.byteSized)
    match index with
    | 2 => return .unary .not target
    | 3 => return .unary .neg target
    | 4 => return .multiply false target
    | 5 => return .multiply true target
    | 6 => return .divide false target
    | _ => return .divide true target

/-- The groups `FE` and `FF`; only the latter goes beyond increment and decrement. -/
def incrementGroup (mods : Modifiers) (opcode : Nat) : Decoder (Option Instruction) := do
  let byteSized := isByte opcode
  match ← groupIndex, byteSized with
  | 0, _ => return some (.unary .inc (← modRmOperand mods (mods.operandWidth byteSized)))
  | 1, _ => return some (.unary .dec (← modRmOperand mods (mods.operandWidth byteSized)))
  | 2, false => return some (.call (← modRmOperand mods .qword))
  | 4, false => return some (.jump .always (← modRmOperand mods .qword))
  | 6, false => return some (.push (← modRmOperand mods mods.stackWidth))
  | _, _ => return none

/-- The group `0F BA`: a bit test at an immediate offset. -/
def bitGroup (mods : Modifiers) : Decoder (Option Instruction) := do
  let member (op : BitOp) : Decoder (Option Instruction) := do
    let base ← modRmOperand mods (mods.operandWidth false)
    let i ← Immediate.decode .byte {}
    return some (.bitTest op base (.immediate i))
  match ← groupIndex with
  | 4 => member .test
  | 5 => member .set
  | 6 => member .reset
  | 7 => member .complement
  | _ => return none

def onPair (mods : Modifiers) (form : Form) (make : Operand → Operand → Instruction) :
    Decoder (Option Instruction) := do
  let (dst, src) ← modRmPair mods form
  return some (make dst src)

/-! The maps. -/

/-- The register of `90` to `97` exchanged with the accumulator. -/
def exchangeAccumulator (mods : Modifiers) (opcode : Nat) : Instruction :=
  let w := mods.operandWidth false
  .exchange (.register (opcodeRegister mods opcode w)) (.register (.accumulator w))

/-- The upper half of the one-byte map that is not laid out in rows of eight. -/
def oneByteSingle (mods : Modifiers) (opcode : Nat) : Decoder (Option Instruction) :=
  let w := mods.operandWidth false
  match opcode with
  | 0x63 => some <$> widening mods .dword true
  | 0x68 => do return some (.push (.immediate (← Immediate.decode mods.stackWidth {})))
  | 0x69 | 0x6B => some <$> productImmediate mods opcode
  | 0x6A => do
    return some (.push (.immediate (← Immediate.decode mods.stackWidth { shortImmediate := true })))
  | 0x80 | 0x81 | 0x83 => some <$> immediateGroup mods opcode
  | 0x84 | 0x85 => onPair mods { byteSized := isByte opcode } .test
  | 0x86 | 0x87 => onPair mods { byteSized := isByte opcode } .exchange
  | 0x88 | 0x89 => onPair mods { byteSized := isByte opcode } .move
  | 0x8A | 0x8B => onPair mods { byteSized := isByte opcode, swapped := true } .move
  | 0x8D => addressOf mods
  | 0x8F => memberZero (popOperand mods)
  | 0x98 => return some (.widenAccumulator w)
  | 0x99 => return some (.spreadSign w)
  | 0x9C => return some (.pushFlags mods.stackWidth)
  | 0x9D => return some (.popFlags mods.stackWidth)
  | 0x9E => return some .loadFlags
  | 0x9F => return some .storeFlags
  | 0xA4 | 0xA5 => return some (stringOp mods .move (isByte opcode))
  | 0xA6 | 0xA7 => return some (stringOp mods .compare (isByte opcode))
  | 0xA8 | 0xA9 => do
    let (dst, src) ← accumulatorImmediate mods { byteSized := isByte opcode }
    return some (.test dst src)
  | 0xAA | 0xAB => return some (stringOp mods .store (isByte opcode))
  | 0xAC | 0xAD => return some (stringOp mods .load (isByte opcode))
  | 0xAE | 0xAF => return some (stringOp mods .scan (isByte opcode))
  | 0xC0 | 0xC1 | 0xD0 | 0xD1 | 0xD2 | 0xD3 => some <$> shiftGroup mods opcode
  | 0xC2 => do return some (.ret (← Decoder.fetchWord 2).toUInt16)
  | 0xC3 => return some (.ret 0)
  | 0xC6 | 0xC7 => memberZero (moveImmediate mods opcode)
  | 0xC9 => return some (.leave mods.stackWidth)
  | 0xE3 => do return some (.jump .counterZero (← branchTarget true))
  | 0xE8 => do return some (.call (← branchTarget false))
  | 0xE9 => do return some (.jump .always (← branchTarget false))
  | 0xEB => do return some (.jump .always (← branchTarget true))
  | 0xF5 => return some (.flag .complementCarry)
  | 0xF6 | 0xF7 => some <$> unaryGroup mods opcode
  | 0xF8 => return some (.flag .clearCarry)
  | 0xF9 => return some (.flag .setCarry)
  | 0xFA => return some (.flag .clearInterrupt)
  | 0xFB => return some (.flag .setInterrupt)
  | 0xFC => return some (.flag .clearDirection)
  | 0xFD => return some (.flag .setDirection)
  | 0xFE | 0xFF => incrementGroup mods opcode
  | _ => return none

/-- The one-byte map: rows of eight or sixteen opcodes of one shape, and single opcodes. -/
def oneByte (mods : Modifiers) (opcode : Nat) : Decoder (Option Instruction) :=
  if opcode < 0x40 ∧ opcode % 8 < 6 then some <$> classic mods opcode
  else if opcode / 8 = 0x50 / 8 then
    return some (.push (.register (opcodeRegister mods opcode mods.stackWidth)))
  else if opcode / 8 = 0x58 / 8 then
    return some (.pop (.register (opcodeRegister mods opcode mods.stackWidth)))
  else if opcode / 16 = 0x70 / 16 then do
    return some (.jump (.ofCode opcode) (← branchTarget true))
  else if opcode = 0x90 ∧ mods.bits.base = false then return some (.nop none)
  else if opcode / 8 = 0x90 / 8 then return some (exchangeAccumulator mods opcode)
  else if opcode / 8 = 0xB0 / 8 then do
    let dst := opcodeRegister mods opcode .byte
    return some (.move (.register dst) (.immediate (← Immediate.decode .byte {})))
  else if opcode / 8 = 0xB8 / 8 then do
    let w := mods.operandWidth false
    let dst := opcodeRegister mods opcode w
    let i ← Immediate.decode w { wideImmediate := true }
    return some (.move (.register dst) (.immediate i))
  else oneByteSingle mods opcode

def twoByte (mods : Modifiers) (opcode : Nat) : Decoder (Option Instruction) :=
  let w := mods.operandWidth false
  if opcode / 16 = 0x40 / 16 then onPair mods { swapped := true } (.moveIf (.ofCode opcode))
  else if opcode / 16 = 0x80 / 16 then do
    return some (.jump (.ofCode opcode) (← branchTarget false))
  else if opcode / 16 = 0x90 / 16 then do
    return some (.setIf (.ofCode opcode) (← modRmOperand mods .byte))
  else if opcode / 8 = 0xC8 / 8 then
    return some (.swapBytes (opcodeRegister mods opcode (if mods.bits.wide then .qword else .dword)))
  else match opcode with
    | 0x1F => memberZero do return .nop (some (← modRmOperand mods w))
    | 0xA3 => onPair mods {} (.bitTest .test)
    | 0xAB => onPair mods {} (.bitTest .set)
    | 0xB3 => onPair mods {} (.bitTest .reset)
    | 0xBB => onPair mods {} (.bitTest .complement)
    | 0xAF => onPair mods { swapped := true } fun dst src => .multiplyInto dst src none
    | 0xB6 => some <$> widening mods .byte false
    | 0xB7 => some <$> widening mods .word false
    | 0xBE => some <$> widening mods .byte true
    | 0xBF => some <$> widening mods .word true
    | 0xBA => bitGroup mods
    | 0xBC => onPair mods { swapped := true } (.bitScan false)
    | 0xBD => onPair mods { swapped := true } (.bitScan true)
    | 0xC0 | 0xC1 => onPair mods { byteSized := isByte opcode } .exchangeAdd
    | _ => return none

end Opcodes

/-- The instruction that an opcode begins, with its operand bytes read; none where the map has no
entry for the encoding. -/
def OpcodeMap.decode (map : OpcodeMap) (mods : Modifiers) (opcode : UInt8) :
    Decoder (Option Instruction) :=
  match map with
  | oneByte => Opcodes.oneByte mods opcode.toNat
  | twoByte => Opcodes.twoByte mods opcode.toNat

end LongMode
