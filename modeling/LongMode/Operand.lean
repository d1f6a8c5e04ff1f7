import LongMode.Encoding.Decoder
import LongMode.Machine
import LongMode.Register.Name
/-!
Operands: registers, memory and immediate values, each of which can be read, written (immediates
apart) and rendered without going back to the instruction bytes. The address of a memory operand is
worked out on access, so that one relative to the instruction pointer counts from the end of the
whole instruction.
-/

namespace LongMode

/-- How the operand bytes of an opcode are laid out. -/
structure Form where
  /-- The operands are bytes, whatever the modifiers say. -/
  byteSized : Bool := false
  /-- The register field is the destination. -/
  swapped : Bool := false
  /-- The immediate is one byte, sign-extended. -/
  shortImmediate : Bool := false
  /-- An immediate of a 64-bit operand has eight bytes. -/
  wideImmediate : Bool := false
  /-- The immediate counts from the byte after it. -/
  relative : Bool := false
  /-- The register field selects the operation. -/
  extended : Bool := false
deriving DecidableEq, Repr

/-- A value in the instruction; that of a branch is the address it leads to. -/
structure Immediate where
  value : UInt64
  width : Width
  relative : Bool
deriving DecidableEq, Repr

namespace Immediate

def text (i : Immediate) : String := Digits.prefixedUpperHex i.value.toNat

def storedWidth (w : Width) (form : Form) : Width :=
  if form.shortImmediate then .byte
  else match w with
    | .qword => if form.wideImmediate then .qword else .dword
    | .xmm | .ymm => .dword
    | _ => w

def decode (w : Width) (form : Form) : Decoder Immediate := do
  let stored := storedWidth w form
  let raw ← Decoder.fetchWord stored.bytes
  let v := stored.signExtend raw
  if form.relative then
    let next ← get
    return { value := next + v, width := .qword, relative := true }
  else
    return { value := v &&& w.mask, width := w, relative := false }

end Immediate

structure Pointer where
  width : Width
  /-- The width to which addresses are cut off. -/
  addressWidth : Width
  base : Option Register := none
  index : Option Register := none
  scale : UInt8 := 1
  displacement : Int64 := 0
  ipRelative : Bool := false
  segment : Option SegmentRegister := none
deriving DecidableEq, Repr

namespace Pointer

def ofRegister (w : Width) (base : Register) : Pointer :=
  { width := w, addressWidth := base.width, base := some base }

/-- The address in a state of the machine. Segments have no base here. -/
def resolve (p : Pointer) (m : Machine) : UInt64 :=
  let ip := if p.ipRelative then m.ip else 0
  let base := (p.base.map m.get).getD 0
  let index := (p.index.map fun r => m.get r * p.scale.toUInt64).getD 0
  (p.displacement.toUInt64 + ip + base + index) &&& p.addressWidth.mask

/-- The registers of the address: a base or the instruction pointer, then a scaled index. -/
def registerTerms (p : Pointer) : List String :=
  let ip := if p.ipRelative then [if p.addressWidth = .dword then "EIP" else "RIP"] else []
  let base := (p.base.map Register.mnemonic).toList
  -- The instruction pointer and a base never occur together in an encoding; shown side by side.
  let first := String.join (ip ++ base)
  let index := p.index.map fun r =>
    r.mnemonic ++ (if 1 < p.scale then "*" ++ toString p.scale else "")
  (if first.isEmpty then [] else [first]) ++ index.toList

/-- The address in brackets, for instance `FS:[RAX+RCX*4-0x8]`. -/
def expression (p : Pointer) : String :=
  let segment := (p.segment.map fun s => s.name ++ ":").getD ""
  let terms := p.registerTerms
  let displacement :=
    if terms.isEmpty then
      Digits.prefixedUpperHex (p.displacement.toUInt64 &&& p.addressWidth.mask).toNat
    else if p.displacement = 0 then ""
    else if p.displacement < 0 then "-" ++ Digits.prefixedUpperHex p.displacement.toInt.natAbs
    else "+" ++ Digits.prefixedUpperHex p.displacement.toInt.natAbs
  segment ++ "[" ++ "+".intercalate terms ++ displacement ++ "]"

def text (p : Pointer) : String := p.width.pointerKeyword ++ " " ++ p.expression

end Pointer

inductive Operand where
  | register (r : Register)
  | memory (p : Pointer)
  | immediate (i : Immediate)
deriving DecidableEq, Repr

namespace Operand

def width : Operand → Width
  | register r => r.width
  | memory p => p.width
  | immediate i => i.width

def withWidth (w : Width) : Operand → Operand
  | register r => register { r with width := w }
  | memory p => memory { p with width := w }
  | immediate i => immediate { i with width := w, value := i.value &&& w.mask }

def read (m : Machine) : Operand → Except Fault UInt64
  | register r => .ok (m.get r)
  | memory p => m.readWord (p.resolve m) p.width
  | immediate i => .ok i.value

def write (m : Machine) (v : UInt64) : Operand → Except Misuse Machine
  | register r => .ok (m.set r v)
  | memory p => .ok (m.writeWord (p.resolve m) p.width v)
  | immediate _ => .error .immediateWrite

def isMemory : Operand → Bool
  | memory _ => true
  | _ => false

def isRegister : Operand → Bool
  | register _ => true
  | _ => false

def text : Operand → String
  | register r => r.mnemonic
  | memory p => p.text
  | immediate i => i.text

end Operand

end LongMode
