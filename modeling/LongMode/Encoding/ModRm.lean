import LongMode.Operand
/-!
The ModRM byte and what follows it: an optional SIB byte and a displacement. Together they name a
register and an operand that is a register or memory.
-/

namespace LongMode

def extendField (high : Bool) (field : Nat) : Fin 16 :=
  ⟨field % 8 + (if high then 8 else 0), by split <;> omega⟩

/-- A SIB byte with the displacement that belongs to it. -/
structure Sib where
  scale : UInt8
  index : Option Register
  base : Option Register
  displacement : Int64
deriving DecidableEq, Repr

namespace Sib

def scaleOf (field : Nat) : UInt8 := 1 <<< UInt8.ofNat field

/-- A SIB byte behind a ModRM byte of mode `mode`. Index 4 stands for none. Base field 5 stands in
mode 0 for no base and a displacement of four bytes. -/
def decode (mods : Modifiers) (mode : Nat) : Decoder Sib := do
  let byte ← Decoder.fetch
  let n := byte.toNat
  let index := extendField mods.bits.index (n / 8)
  let index? := if index.val = 4 then none else some (Register.general index mods.addressWidth)
  if n % 8 = 5 ∧ mode = 0 then
    let raw ← Decoder.fetchWord 4
    return { scale := scaleOf (n / 64), index := index?, base := none
             displacement := (Width.dword.signExtend raw).toInt64 }
  else
    let base := Register.general (extendField mods.bits.base n) mods.addressWidth
    return { scale := scaleOf (n / 64), index := index?, base := some base, displacement := 0 }

end Sib

structure ModRm where
  mode : Nat
  /-- The register field with its fourth bit. -/
  reg : Fin 16
  /-- The operand field with its fourth bit. -/
  rm : Fin 16
  destination : Operand
  /-- The register of the register field, unless the field selects an operation. -/
  source : Option Operand
deriving DecidableEq, Repr

namespace ModRm

/-- The memory operand without the displacement that the mode asks for. -/
def decodeBase (mods : Modifiers) (mode field : Nat) (p : Pointer) : Decoder Pointer := do
  if field % 8 = 4 then
    let sib ← Sib.decode mods mode
    return { p with base := sib.base, index := sib.index, scale := sib.scale
                    displacement := sib.displacement }
  else if field % 8 = 5 ∧ mode = 0 then
    let raw ← Decoder.fetchWord 4
    return { p with ipRelative := true, displacement := (Width.dword.signExtend raw).toInt64 }
  else
    let base := Register.general (extendField mods.bits.base field) mods.addressWidth
    return { p with base := some base }

def decodeDisplacement (mode : Nat) (p : Pointer) : Decoder Pointer := do
  if mode = 1 then
    let raw ← Decoder.fetchWord 1
    return { p with displacement := p.displacement + (Width.byte.signExtend raw).toInt64 }
  else if mode = 2 then
    let raw ← Decoder.fetchWord 4
    return { p with displacement := p.displacement + (Width.dword.signExtend raw).toInt64 }
  else return p

def decodeOperand (mods : Modifiers) (mode field : Nat) (w : Width) : Decoder Operand := do
  if mode = 3 then
    return .register ⟨.general, extendField mods.bits.base field, w, mods.rex.isSome⟩
  else
    let blank : Pointer :=
      { width := w, addressWidth := mods.addressWidth, segment := mods.segment }
    let based ← decodeBase mods mode field blank
    let p ← decodeDisplacement mode based
    return .memory p

/-- A ModRM byte whose two operands have the widths `rmWidth` and `regWidth`. -/
def decode (mods : Modifiers) (rmWidth regWidth : Width) (form : Form) : Decoder ModRm := do
  let byte ← Decoder.fetch
  let n := byte.toNat
  let mode := n / 64
  let reg := extendField mods.bits.reg (n / 8)
  let destination ← decodeOperand mods mode n rmWidth
  let source : Option Operand :=
    if form.extended then none
    else some (.register ⟨.general, reg, regWidth, mods.rex.isSome⟩)
  return { mode, reg, rm := extendField mods.bits.base n, destination, source }

/-- The register field as an operation code. -/
def extension (m : ModRm) : Nat := m.reg.val % 8

end ModRm

inductive Part where
  | modRm (m : ModRm)
  | immediate (i : Immediate)
  | register (r : Register)
deriving DecidableEq, Repr

def Part.operands : Part → List Operand
  | modRm m => m.destination :: m.source.toList
  | immediate i => [.immediate i]
  | register r => [.register r]

namespace Parts

def operands (parts : List Part) : List Operand := parts.flatMap Part.operands

/-- The first operand of each group. -/
def leading (parts : List Part) : List Operand := parts.filterMap fun p => p.operands.head?

def pair (form : Form) (parts : List Part) : Except Misuse (Operand × Operand) :=
  let all := if form.extended then leading parts else operands parts
  match if form.swapped then all.reverse else all with
  | [dst, src] => .ok (dst, src)
  | other => .error (.operandCount other.length)

end Parts

end LongMode
