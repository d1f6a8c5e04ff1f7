import LongMode.Arithmetic.Product
import LongMode.Arithmetic.Shift
import LongMode.Execute.StringOp
/-!
The effect of each instruction on the machine, whose instruction pointer is past the instruction.
Every instruction reads all its operands before it changes anything, except that `LEAVE` has dropped
its stack frame when it reads the saved base pointer, and that a repeated string instruction has
dealt with some elements when a later one faults.
-/

namespace LongMode

/-- What an instruction needs to know of its surroundings. -/
structure Frame where
  /-- The first byte of the encoding. -/
  start : UInt64
  addressWidth : Width
  /-- Control flow takes place. -/
  jumps : Bool
deriving DecidableEq, Repr

namespace Execute

/-- Some flags set and all others left alone. -/
def carryFlags (b : Bool) : Flags := { carry := some b }
def zeroFlags (b : Bool) : Flags := { zero := some b }
def overflowFlags (b : Bool) : Flags := { carry := some b, overflow := some b }

def jump (frame : Frame) (target : UInt64) (m : Machine) : Machine :=
  if frame.jumps then { m with ip := target } else m

def holds (frame : Frame) (cond : Condition) (m : Machine) : Bool :=
  cond.holds m.flags (m.get (.counter frame.addressWidth))

def read (o : Operand) (m : Machine) : Except Halt UInt64 := orFault (o.read m)

def write (o : Operand) (v : UInt64) (m : Machine) : Except Halt Machine := orMisuse (o.write m v)

def binaryResult (op : BinaryOp) (a b : UInt64) (carry : Bool) (w : Width) : UInt64 × Flags :=
  match op with
  | .add => Arithmetic.add a b false w
  | .adc => Arithmetic.add a b carry w
  | .sub | .cmp => Arithmetic.sub a b false w
  | .sbb => Arithmetic.sub a b carry w
  | .and => (a &&& b, Arithmetic.logic (a &&& b) w)
  | .or => (a ||| b, Arithmetic.logic (a ||| b) w)
  | .xor => (a ^^^ b, Arithmetic.logic (a ^^^ b) w)

def binary (op : BinaryOp) (dst src : Operand) (m : Machine) : Except Halt Machine := do
  let a ← read dst m
  let b ← read src m
  let (result, flags) := binaryResult op a b (isOn m.flags.carry) dst.width
  let written ← if op = .cmp then pure m else write dst result m
  return written.define flags

def test (dst src : Operand) (m : Machine) : Except Halt Machine := do
  let a ← read dst m
  let b ← read src m
  return m.define (Arithmetic.logic (a &&& b) dst.width)

/-- The result and the flags of an operation on one operand; counting up and down keeps the
carry. -/
def unaryResult (op : UnaryOp) (v : UInt64) (w : Width) : UInt64 × Flags :=
  match op with
  | .inc => let (result, flags) := Arithmetic.add v 1 false w; (result, { flags with carry := none })
  | .dec => let (result, flags) := Arithmetic.sub v 1 false w; (result, { flags with carry := none })
  | .not => (~~~v &&& w.mask, .undefined)
  | .neg => Arithmetic.sub 0 v false w

def unary (op : UnaryOp) (target : Operand) (m : Machine) : Except Halt Machine := do
  let v ← read target m
  let (result, flags) := unaryResult op v target.width
  let written ← write target result m
  return written.define flags

/-- The two halves of a double-width number, which for bytes is the low word of the accumulator. -/
def setPair (w : Width) (low high : UInt64) (m : Machine) : Machine :=
  if w = .byte then m.set (.accumulator .word) ((high <<< 8) ||| low)
  else (m.set (.accumulator w) low).set (.data w) high

def multiply (signed : Bool) (source : Operand) (m : Machine) : Except Halt Machine := do
  let w := source.width
  let a := m.get (.accumulator w)
  let b ← read source m
  let p := if signed then Arithmetic.mulSigned a b w else Arithmetic.mulUnsigned a b w
  return (setPair w p.low p.high m).define (overflowFlags p.overflow)

def divide (frame : Frame) (signed : Bool) (source : Operand) (m : Machine) :
    Except Halt Machine := do
  let w := source.width
  let divisor ← read source m
  let (high, low) :=
    if w = .byte then
      let ax := m.get (.accumulator .word)
      (ax >>> 8, ax &&& 0xFF)
    else (m.get (.data w), m.get (.accumulator w))
  let result? := if signed then Arithmetic.divSigned high low divisor w
    else Arithmetic.divUnsigned high low divisor w
  match result? with
  | none => throw (.fault (.divideError frame.start))
  | some (quotient, remainder) => return setPair w quotient remainder m

def multiplyInto (dst src : Operand) (factor : Option Operand) (m : Machine) :
    Except Halt Machine := do
  let w := dst.width
  let a ← read (if factor.isSome then src else dst) m
  let b ← read (factor.getD src) m
  let p := Arithmetic.mulSigned a b w
  let written ← write dst p.low m
  return written.define (overflowFlags p.overflow)

def move (dst src : Operand) (m : Machine) : Except Halt Machine := do
  let v ← read src m
  write dst v m

def moveExtend (signed : Bool) (dst src : Operand) (m : Machine) : Except Halt Machine := do
  let v ← read src m
  let extended := if signed then src.width.signExtend v else v
  write dst (extended &&& dst.width.mask) m

def exchange (a b : Operand) (m : Machine) : Except Halt Machine := do
  let left ← read a m
  let right ← read b m
  let written ← write a right m
  write b left written

def exchangeAdd (dst src : Operand) (m : Machine) : Except Halt Machine := do
  let a ← read dst m
  let b ← read src m
  let (sum, flags) := Arithmetic.add a b false dst.width
  let copied ← write src a m
  let written ← write dst sum copied
  return written.define flags

/-- A move that may not take place. A doubleword register is zero-extended even then. -/
def moveIf (frame : Frame) (cond : Condition) (dst src : Operand) (m : Machine) :
    Except Halt Machine := do
  let v ← read src m
  if holds frame cond m then write dst v m
  else if dst.width = .dword && !dst.isMemory then
    let current ← read dst m
    write dst current m
  else return m

def setIf (frame : Frame) (cond : Condition) (dst : Operand) (m : Machine) : Except Halt Machine :=
  write dst (if holds frame cond m then 1 else 0) m

/-- The bytes of a register in reverse order; other widths than doubleword and quadword stay. -/
def swapped (v : UInt64) : Width → UInt64
  | .qword => LittleEndian.toWord (LittleEndian.ofWord 8 v).reverse
  | .dword => LittleEndian.toWord (LittleEndian.ofWord 4 v).reverse
  | _ => v

def swapBytes (target : Register) (m : Machine) : Machine :=
  m.set target (swapped (m.get target) target.width)

def widenAccumulator (w : Width) (m : Machine) : Machine :=
  m.set (.accumulator w) (w.half.signExtend (m.get (.accumulator w.half)))

def spreadSign (w : Width) (m : Machine) : Machine :=
  m.set (.data w) (if m.get (.accumulator w) &&& w.signBit != 0 then w.mask else 0)

def push (source : Operand) (m : Machine) : Except Halt Machine := do
  let v ← read source m
  return m.push source.width v

def pop (target : Operand) (m : Machine) : Except Halt Machine := do
  let (v, popped) ← orFault (m.pop target.width)
  write target v popped

def popFlags (w : Width) (m : Machine) : Except Halt Machine := do
  let (image, popped) ← orFault (m.pop w)
  return popped.define (.ofWord image)

/-- The stack frame is dropped first; a fault on the saved base pointer does not restore it. -/
def leave (w : Width) (m : Machine) : Outcome :=
  let dropped := m.set .stackPointer (m.get (.basePointer .qword))
  .whole dropped do
    let (saved, popped) ← orFault (dropped.pop w)
    return popped.set (.basePointer w) saved

/-- The target is read whether or not the jump takes place. -/
def jumpIf (frame : Frame) (cond : Condition) (target : Operand) (m : Machine) :
    Except Halt Machine := do
  let destination ← read target m
  return if holds frame cond m then jump frame destination m else m

def call (frame : Frame) (target : Operand) (m : Machine) : Except Halt Machine := do
  let destination ← read target m
  return jump frame destination (m.push .qword m.ip)

def ret (frame : Frame) (release : UInt16) (m : Machine) : Except Halt Machine := do
  let (destination, popped) ← orFault (m.pop .qword)
  let top := popped.get .stackPointer + release.toUInt64
  return jump frame destination (popped.set .stackPointer top)

def shift (op : ShiftOp) (target count : Operand) (m : Machine) : Except Halt Machine := do
  let v ← read target m
  let amount ← read count m
  match Arithmetic.shift op v amount target.width (isOn m.flags.carry) with
  | none => return m
  | some (result, flags) =>
    let written ← write target result m
    return written.define flags

/-- The word after a bit operation, if the operation writes it. -/
def bitResult (op : BitOp) (v mask : UInt64) : Option UInt64 :=
  match op with
  | .test => none
  | .set => some (v ||| mask)
  | .reset => some (v &&& ~~~mask)
  | .complement => some (v ^^^ mask)

/-- Where the bit is: the memory element that holds it, or none for a register, and its position.
A register offset into memory counts in elements from the operand, up or down. -/
def bitPlace (base offset : Operand) (raw : UInt64) (m : Machine) : Option UInt64 × Nat :=
  let w := base.width
  match base with
  | .memory p =>
    if offset.isRegister then
      let signed := offset.width.toInt raw
      let element := signed.fdiv w.bits
      (some (p.resolve m + UInt64.ofInt (element * w.bytes)), (signed.fmod w.bits).toNat)
    else (some (p.resolve m), raw.toNat % w.bits)
  | _ => (none, raw.toNat % w.bits)

def bitTest (op : BitOp) (base offset : Operand) (m : Machine) : Except Halt Machine := do
  let w := base.width
  let raw ← read offset m
  let (address?, bit) := bitPlace base offset raw m
  let v ← match address? with
    | some a => orFault (m.readWord a w)
    | none => read base m
  let mask : UInt64 := 1 <<< UInt64.ofNat bit
  let written ← match bitResult op v mask, address? with
    | some new, some a => pure (m.writeWord a w new)
    | some new, none => write base new m
    | none, _ => pure m
  return written.define (carryFlags (v &&& mask != 0))

def lowestBit (v : UInt64) : Nat → Nat → Nat
  | 0, i => i
  | n + 1, i => if v.toNat.testBit i then i else lowestBit v n (i + 1)

def bitScan (reverse : Bool) (dst src : Operand) (m : Machine) : Except Halt Machine := do
  let v ← read src m
  if v = 0 then return m.define (zeroFlags true)
  else
    let position := if reverse then v.toNat.log2 else lowestBit v 64 0
    let written ← write dst (UInt64.ofNat position) m
    return written.define (zeroFlags false)

def flagResult (op : FlagOp) (live : Flags) : Flags :=
  match op with
  | .clearCarry => carryFlags false
  | .setCarry => carryFlags true
  | .complementCarry => carryFlags !(isOn live.carry)
  | .clearDirection => { direction := some false }
  | .setDirection => { direction := some true }
  | .clearInterrupt => { interrupt := some false }
  | .setInterrupt => { interrupt := some true }

/-- The flags in the low byte of the flags register, the overflow flag apart. -/
def loadFlags (m : Machine) : Machine :=
  let loaded := Flags.ofWord (m.get .highAccumulator)
  m.define
    { sign := loaded.sign, zero := loaded.zero, auxiliary := loaded.auxiliary
      parity := loaded.parity, carry := loaded.carry }

def storeFlags (m : Machine) : Machine := m.set .highAccumulator (m.flags.toWord &&& 0xFF)

end Execute

open Execute in
def Instruction.execute (i : Instruction) (frame : Frame) (m : Machine) : Outcome :=
  match i with
  | binary op dst src => .whole m (Execute.binary op dst src m)
  | test dst src => .whole m (Execute.test dst src m)
  | unary op target => .whole m (Execute.unary op target m)
  | multiply signed source => .whole m (Execute.multiply signed source m)
  | divide signed source => .whole m (Execute.divide frame signed source m)
  | multiplyInto dst src factor => .whole m (Execute.multiplyInto dst src factor m)
  | move dst src => .whole m (Execute.move dst src m)
  | moveExtend signed dst src => .whole m (Execute.moveExtend signed dst src m)
  | loadAddress dst src => .whole m (write dst (src.resolve m) m)
  | exchange a b => .whole m (Execute.exchange a b m)
  | exchangeAdd dst src => .whole m (Execute.exchangeAdd dst src m)
  | moveIf cond dst src => .whole m (Execute.moveIf frame cond dst src m)
  | setIf cond dst => .whole m (Execute.setIf frame cond dst m)
  | swapBytes target => .done (Execute.swapBytes target m)
  | widenAccumulator w => .done (Execute.widenAccumulator w m)
  | spreadSign w => .done (Execute.spreadSign w m)
  | push source => .whole m (Execute.push source m)
  | pop target => .whole m (Execute.pop target m)
  | pushFlags w => .done (m.push w m.flags.toWord)
  | popFlags w => .whole m (Execute.popFlags w m)
  | leave w => Execute.leave w m
  | jump cond target => .whole m (Execute.jumpIf frame cond target m)
  | call target => .whole m (Execute.call frame target m)
  | ret release => .whole m (Execute.ret frame release m)
  | shift op target count => .whole m (Execute.shift op target count m)
  | bitTest op base offset => .whole m (Execute.bitTest op base offset m)
  | bitScan reverse dst src => .whole m (Execute.bitScan reverse dst src m)
  | flag op => .done (m.define (flagResult op m.flags))
  | loadFlags => .done (Execute.loadFlags m)
  | storeFlags => .done (Execute.storeFlags m)
  | string op => op.execute m
  | nop _ => .done m

end LongMode
