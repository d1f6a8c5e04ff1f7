import LongMode.Encoding.Located
import LongMode.Proofs.Encoding.Opcodes
import LongMode.Proofs.Guarded.Decode
/-!
The opcode maps, guarded, and the decoder of an encoding that they are the core of. They are put
together from the guarded decoders of words, registers and ModRM operands. A destination and a
source are made of exactly two operands: each shape of operands comes from a ModRM byte that has as
many, and so none of the maps crashes.
-/

namespace LongMode.Guarded

open Decoding

/-! Operand shapes. -/

/-- The destination and the source, which the parts have to come to. -/
def pair (form : Form) (parts : List Part) : Except Crash (Operand × Operand) :=
  match Parts.pair form parts with
  | .ok p => .ok p
  | .error u => .error (.misuse u)

def modRmPair (mods : Modifiers) (form : Form) : Decoding (Operand × Operand) := do
  let w := mods.operandWidth form.byteSized
  let m ← modRm mods w w form
  sure (pair form [.modRm m])

def modRmOperand (mods : Modifiers) (w : Width) : Decoding Operand := do
  let m ← modRm mods w w { extended := true }
  return m.destination

def modRmImmediate (mods : Modifiers) (form : Form) : Decoding (Operand × Operand) := do
  let form := { form with extended := true }
  let w := mods.operandWidth form.byteSized
  let m ← modRm mods w w form
  let i ← immediate w form
  sure (pair form [.modRm m, .immediate i])

def accumulatorImmediate (mods : Modifiers) (form : Form) : Decoding (Operand × Operand) := do
  let w := mods.operandWidth form.byteSized
  let accumulator ← sure (register .general 0 w true)
  let i ← immediate w form
  sure (pair form [.register accumulator, .immediate i])

def widening (mods : Modifiers) (rmWidth : Width) (signed : Bool) : Decoding Instruction := do
  let m ← modRm mods rmWidth (mods.operandWidth false) {}
  let (dst, src) ← sure (pair { swapped := true } [.modRm m])
  return .moveExtend signed dst src

def opcodeRegister (mods : Modifiers) (opcode : Nat) (w : Width) : Except Crash Register :=
  register .general (fieldCode mods.bits.base opcode) w mods.rex.isSome

def branchTarget (short : Bool) : Decoding Operand := do
  let i ← immediate .dword { relative := true, shortImmediate := short }
  return .immediate i

def groupIndex : Decoding Nat := do
  let byte ← part Decoder.peek
  return byte.toNat / 8 % 8

/-! Opcodes of one shape. -/

def classic (mods : Modifiers) (opcode : Nat) : Decoding Instruction := do
  let form : Form := { byteSized := Opcodes.isByte opcode }
  let (dst, src) ← match opcode % 8 with
    | 0 | 1 => modRmPair mods form
    | 2 | 3 => modRmPair mods { form with swapped := true }
    | _ => accumulatorImmediate mods form
  return .binary (.ofIndex (opcode / 8)) dst src

def immediateGroup (mods : Modifiers) (opcode : Nat) : Decoding Instruction := do
  let op := BinaryOp.ofIndex (← groupIndex)
  let (dst, src) ← modRmImmediate mods
    { byteSized := opcode = 0x80, shortImmediate := opcode = 0x83 }
  return .binary op dst src

def productImmediate (mods : Modifiers) (opcode : Nat) : Decoding Instruction := do
  let w := mods.operandWidth false
  let m ← modRm mods w w {}
  let i ← immediate w { shortImmediate := opcode = 0x6B }
  let (dst, src) ← sure (pair { swapped := true } [.modRm m])
  return .multiplyInto dst src (some (.immediate i))

def addressOf (mods : Modifiers) : Decoding (Option Instruction) := do
  let w := mods.operandWidth false
  let m ← modRm mods w w {}
  match m.destination, m.source with
  | .memory p, some dst => return some (.loadAddress dst p)
  | _, _ => return none

def memberZero (member : Decoding Instruction) : Decoding (Option Instruction) := do
  if (← groupIndex) = 0 then some <$> member else return none

def popOperand (mods : Modifiers) : Decoding Instruction := do
  let target ← modRmOperand mods mods.stackWidth
  return .pop target

def moveImmediate (mods : Modifiers) (opcode : Nat) : Decoding Instruction := do
  let (dst, src) ← modRmImmediate mods { byteSized := Opcodes.isByte opcode }
  return .move dst src

def shiftGroup (mods : Modifiers) (opcode : Nat) : Decoding Instruction := do
  let op := ShiftOp.ofIndex (← groupIndex)
  let target ← modRmOperand mods (mods.operandWidth (Opcodes.isByte opcode))
  if opcode < 0xD0 then
    let i ← immediate .byte {}
    return .shift op target (.immediate i)
  else if opcode < 0xD2 then
    return .shift op target (.immediate { value := 1, width := .byte, relative := false })
  else
    let counter ← sure (register .general 1 .byte true)
    return .shift op target (.register counter)

/-- The members of the group `F6` and `F7` that have one operand. -/
def unaryMember (index : Nat) (target : Operand) : Instruction :=
  match index with
  | 2 => .unary .not target
  | 3 => .unary .neg target
  | 4 => .multiply false target
  | 5 => .multiply true target
  | 6 => .divide false target
  | _ => .divide true target

def unaryGroup (mods : Modifiers) (opcode : Nat) : Decoding Instruction := do
  let form : Form := { byteSized := Opcodes.isByte opcode }
  let index ← groupIndex
  if index < 2 then
    let (dst, src) ← modRmImmediate mods form
    return .test dst src
  else
    let target ← modRmOperand mods (mods.operandWidth form.byteSized)
    return unaryMember index target

def incrementGroup (mods : Modifiers) (opcode : Nat) : Decoding (Option Instruction) := do
  let byteSized := Opcodes.isByte opcode
  match ← groupIndex, byteSized with
  | 0, _ => return some (.unary .inc (← modRmOperand mods (mods.operandWidth byteSized)))
  | 1, _ => return some (.unary .dec (← modRmOperand mods (mods.operandWidth byteSized)))
  | 2, false => return some (.call (← modRmOperand mods .qword))
  | 4, false => return some (.jump .always (← modRmOperand mods .qword))
  | 6, false => return some (.push (← modRmOperand mods mods.stackWidth))
  | _, _ => return none

def bitMember (mods : Modifiers) (op : BitOp) : Decoding (Option Instruction) := do
  let base ← modRmOperand mods (mods.operandWidth false)
  let i ← immediate .byte {}
  return some (.bitTest op base (.immediate i))

def bitGroup (mods : Modifiers) : Decoding (Option Instruction) := do
  match ← groupIndex with
  | 4 => bitMember mods .test
  | 5 => bitMember mods .set
  | 6 => bitMember mods .reset
  | 7 => bitMember mods .complement
  | _ => return none

def onPair (mods : Modifiers) (form : Form) (make : Operand → Operand → Instruction) :
    Decoding (Option Instruction) := do
  let (dst, src) ← modRmPair mods form
  return some (make dst src)

/-! The maps. -/

def exchangeAccumulator (mods : Modifiers) (opcode : Nat) : Except Crash Instruction := do
  let w := mods.operandWidth false
  let r ← opcodeRegister mods opcode w
  let accumulator ← register .general 0 w true
  return .exchange (.register r) (.register accumulator)

def oneByteSingle (mods : Modifiers) (opcode : Nat) : Decoding (Option Instruction) :=
  let w := mods.operandWidth false
  match opcode with
  | 0x63 => some <$> widening mods .dword true
  | 0x68 => do return some (.push (.immediate (← immediate mods.stackWidth {})))
  | 0x69 | 0x6B => some <$> productImmediate mods opcode
  | 0x6A => do
    return some (.push (.immediate (← immediate mods.stackWidth { shortImmediate := true })))
  | 0x80 | 0x81 | 0x83 => some <$> immediateGroup mods opcode
  | 0x84 | 0x85 => onPair mods { byteSized := Opcodes.isByte opcode } .test
  | 0x86 | 0x87 => onPair mods { byteSized := Opcodes.isByte opcode } .exchange
  | 0x88 | 0x89 => onPair mods { byteSized := Opcodes.isByte opcode } .move
  | 0x8A | 0x8B => onPair mods { byteSized := Opcodes.isByte opcode, swapped := true } .move
  | 0x8D => addressOf mods
  | 0x8F => memberZero (popOperand mods)
  | 0x98 => return some (.widenAccumulator w)
  | 0x99 => return some (.spreadSign w)
  | 0x9C => return some (.pushFlags mods.stackWidth)
  | 0x9D => return some (.popFlags mods.stackWidth)
  | 0x9E => return some .loadFlags
  | 0x9F => return some .storeFlags
  | 0xA4 | 0xA5 => return some (Opcodes.stringOp mods .move (Opcodes.isByte opcode))
  | 0xA6 | 0xA7 => return some (Opcodes.stringOp mods .compare (Opcodes.isByte opcode))
  | 0xA8 | 0xA9 => do
    let (dst, src) ← accumulatorImmediate mods { byteSized := Opcodes.isByte opcode }
    return some (.test dst src)
  | 0xAA | 0xAB => return some (Opcodes.stringOp mods .store (Opcodes.isByte opcode))
  | 0xAC | 0xAD => return some (Opcodes.stringOp mods .load (Opcodes.isByte opcode))
  | 0xAE | 0xAF => return some (Opcodes.stringOp mods .scan (Opcodes.isByte opcode))
  | 0xC0 | 0xC1 | 0xD0 | 0xD1 | 0xD2 | 0xD3 => some <$> shiftGroup mods opcode
  | 0xC2 => do return some (.ret (← fetchWord 2).toUInt16)
  | 0xC3 => return some (.ret 0)
  | 0xC6 | 0xC7 => memberZero (moveImmediate mods opcode)
  | 0xC9 => return some (.leave mods.stackWidth)
  | 0xE3 => do return some (.jump .counterZero (← branchTarget true))
  | 0xE8 => do return some (.call (← branchTarget false))
  | 0xE9 => do return some (.jump .always (← branchTarget false))
  | 0xEB => do return some (.jump .always (← branchTarget true))
  | 0xF5 => return some (.flag .complementCarry)
  | 0xF6 | 0xF7 => some <$> unaryGroup mods opcode
  | 0xF8 => return some (.flag .clearCarry)
  | 0xF9 => return some (.flag .setCarry)
  | 0xFA => return some (.flag .clearInterrupt)
  | 0xFB => return some (.flag .setInterrupt)
  | 0xFC => return some (.flag .clearDirection)
  | 0xFD => return some (.flag .setDirection)
  | 0xFE | 0xFF => incrementGroup mods opcode
  | _ => return none

def oneByte (mods : Modifiers) (opcode : Nat) : Decoding (Option Instruction) :=
  if opcode < 0x40 ∧ opcode % 8 < 6 then some <$> classic mods opcode
  else if opcode / 8 = 0x50 / 8 then do
    let r ← sure (opcodeRegister mods opcode mods.stackWidth)
    return some (.push (.register r))
  else if opcode / 8 = 0x58 / 8 then do
    let r ← sure (opcodeRegister mods opcode mods.stackWidth)
    return some (.pop (.register r))
  else if opcode / 16 = 0x70 / 16 then do
    return some (.jump (.ofCode opcode) (← branchTarget true))
  else if opcode = 0x90 ∧ mods.bits.base = false then return some (.nop none)
  else if opcode / 8 = 0x90 / 8 then some <$> sure (exchangeAccumulator mods opcode)
  else if opcode / 8 = 0xB0 / 8 then do
    let dst ← sure (opcodeRegister mods opcode .byte)
    return some (.move (.register dst) (.immediate (← immediate .byte {})))
  else if opcode / 8 = 0xB8 / 8 then do
    let w := mods.operandWidth false
    let dst ← sure (opcodeRegister mods opcode w)
    let i ← immediate w { wideImmediate := true }
    return some (.move (.register dst) (.immediate i))
  else oneByteSingle mods opcode

/-- The part of the two-byte map that is not laid out in rows of eight or sixteen. -/
def twoByteSingle (mods : Modifiers) (opcode : Nat) : Decoding (Option Instruction) :=
  match opcode with
  | 0x1F => memberZero do return .nop (some (← modRmOperand mods (mods.operandWidth false)))
  | 0xA3 => onPair mods {} (.bitTest .test)
  | 0xAB => onPair mods {} (.bitTest .set)
  | 0xB3 => onPair mods {} (.bitTest .reset)
  | 0xBB => onPair mods {} (.bitTest .complement)
  | 0xAF => onPair mods { swapped := true } fun dst src => .multiplyInto dst src none
  | 0xB6 => some <$> widening mods .byte false
  | 0xB7 => some <$> widening mods .word false
  | 0xBE => some <$> widening mods .byte true
  | 0xBF => some <$> widening mods .word true
  | 0xBA => bitGroup mods
  | 0xBC => onPair mods { swapped := true } (.bitScan false)
  | 0xBD => onPair mods { swapped := true } (.bitScan true)
  | 0xC0 | 0xC1 => onPair mods { byteSized := Opcodes.isByte opcode } .exchangeAdd
  | _ => return none

def twoByte (mods : Modifiers) (opcode : Nat) : Decoding (Option Instruction) :=
  if opcode / 16 = 0x40 / 16 then onPair mods { swapped := true } (.moveIf (.ofCode opcode))
  else if opcode / 16 = 0x80 / 16 then do
    return some (.jump (.ofCode opcode) (← branchTarget false))
  else if opcode / 16 = 0x90 / 16 then do
    return some (.setIf (.ofCode opcode) (← modRmOperand mods .byte))
  else if opcode / 8 = 0xC8 / 8 then do
    let r ← sure (opcodeRegister mods opcode (if mods.bits.wide then .qword else .dword))
    return some (.swapBytes r)
  else twoByteSingle mods opcode

def decode (map : OpcodeMap) (mods : Modifiers) (opcode : UInt8) : Decoding (Option Instruction) :=
  match map with
  | .oneByte => oneByte mods opcode.toNat
  | .twoByte => twoByte mods opcode.toNat

def opcode? : Decoding (OpcodeMap × UInt8) := do
  let byte ← part Decoder.fetch
  if byte = Located.escape then
    let second ← part Decoder.fetch
    return (.twoByte, second)
  else return (.oneByte, byte)

def body (mods : Modifiers) : Decoding (OpcodeMap × UInt8 × Option Instruction) := do
  let (map, opcode) ← opcode?
  let instruction ← decode map mods opcode
  return (map, opcode, instruction)

def at? (fetch : Fetch) (start : UInt64) : Guard Located := do
  let (modifiers, a) := Modifiers.leading fetch start
  let ((map, opcode, instruction), next) ← body modifiers fetch a
  return { start, modifiers, map, opcode, instruction, next }

variable (mods : Modifiers)

/-! They run as the plain ones do. -/

theorem accumulator_eq (w : Width) : register .general 0 w true = .ok (.accumulator w) := rfl

theorem counter_eq (w : Width) : register .general 1 w true = .ok (.counter w) := rfl

theorem pair_runs {form : Form} {parts : List Part} {p : Operand × Operand}
    (h : Parts.pair form parts = .ok p) :
    Runs (sure (pair form parts)) (Decoder.ofExcept (Parts.pair form parts)) := by
  unfold pair
  rw [h]
  exact .pure p

theorem modRmPair_runs {form : Form} (he : form.extended = false) :
    Runs (modRmPair mods form) (Opcodes.modRmPair mods form) := by
  refine (modRm_runs mods _ _ form).bind_reads (ModRm.decode_reads mods _ _ form) fun m hm => ?_
  obtain ⟨r, hr, -⟩ := hm.source he
  exact pair_runs (Parts.pair_modRm form hr he)

theorem modRmOperand_runs (w : Width) :
    Runs (modRmOperand mods w) (Opcodes.modRmOperand mods w) :=
  (modRm_runs mods w w _).bind fun _ => .pure _

theorem modRmImmediate_runs {form : Form} (hs : form.swapped = false) :
    Runs (modRmImmediate mods form) (Opcodes.modRmImmediate mods form) := by
  refine (modRm_runs mods _ _ _).bind fun m => ?_
  refine (immediate_runs _ _).bind fun i => ?_
  exact pair_runs (Parts.pair_modRm_immediate m i _ rfl hs)

theorem accumulatorImmediate_runs {form : Form} (hs : form.swapped = false) :
    Runs (accumulatorImmediate mods form) (Opcodes.accumulatorImmediate mods form) := by
  unfold accumulatorImmediate
  dsimp only
  rw [accumulator_eq, sure_bind]
  refine (immediate_runs _ _).bind fun i => ?_
  exact pair_runs (Parts.pair_register_immediate _ i _ hs)

theorem widening_runs (w : Width) (signed : Bool) :
    Runs (widening mods w signed) (Opcodes.widening mods w signed) := by
  refine (modRm_runs mods _ _ _).bind_reads (ModRm.decode_reads mods _ _ _) fun m hm => ?_
  obtain ⟨r, hr, -⟩ := hm.source rfl
  exact (pair_runs (Parts.pair_modRm _ hr rfl)).bind fun _ => .pure _

theorem opcodeRegister_eq (opcode : Nat) (w : Width) :
    opcodeRegister mods opcode w = .ok (Opcodes.opcodeRegister mods opcode w) :=
  register_eq _ _ _ _

theorem branchTarget_runs (short : Bool) :
    Runs (branchTarget short) (Opcodes.branchTarget short) :=
  (immediate_runs _ _).bind fun _ => .pure _

theorem groupIndex_runs : Runs groupIndex Opcodes.groupIndex := Runs.peek.bind fun _ => .pure _

theorem classic_runs (opcode : Nat) : Runs (classic mods opcode) (Opcodes.classic mods opcode) := by
  unfold classic Opcodes.classic
  dsimp only
  rcases opcode % 8 with _ | _ | _ | _ | _
  iterate 4 exact (modRmPair_runs mods rfl).bind fun _ => .pure _
  · exact (accumulatorImmediate_runs mods rfl).bind fun _ => .pure _

theorem immediateGroup_runs (opcode : Nat) :
    Runs (immediateGroup mods opcode) (Opcodes.immediateGroup mods opcode) :=
  groupIndex_runs.bind fun _ => (modRmImmediate_runs mods rfl).bind fun _ => .pure _

theorem productImmediate_runs (opcode : Nat) :
    Runs (productImmediate mods opcode) (Opcodes.productImmediate mods opcode) := by
  refine (modRm_runs mods _ _ _).bind_reads (ModRm.decode_reads mods _ _ _) fun m hm => ?_
  obtain ⟨r, hr, -⟩ := hm.source rfl
  refine (immediate_runs _ _).bind fun i => ?_
  exact (pair_runs (Parts.pair_modRm _ hr rfl)).bind fun _ => .pure _

theorem addressOf_runs : Runs (addressOf mods) (Opcodes.addressOf mods) := by
  refine (modRm_runs mods _ _ _).bind fun m => ?_
  cases m.destination with
  | memory p => cases m.source <;> exact .pure _
  | register r => exact .pure _
  | immediate i => exact .pure _

theorem memberZero_runs {c : Decoding Instruction} {d : Decoder Instruction} (h : Runs c d) :
    Runs (memberZero c) (Opcodes.memberZero d) :=
  groupIndex_runs.bind fun _ => .ite (h.map some) (.pure none)

theorem popOperand_runs : Runs (popOperand mods) (Opcodes.popOperand mods) :=
  (modRmOperand_runs mods _).bind fun _ => .pure _

theorem moveImmediate_runs (opcode : Nat) :
    Runs (moveImmediate mods opcode) (Opcodes.moveImmediate mods opcode) :=
  (modRmImmediate_runs mods rfl).bind fun _ => .pure _

theorem shiftGroup_runs (opcode : Nat) :
    Runs (shiftGroup mods opcode) (Opcodes.shiftGroup mods opcode) := by
  refine groupIndex_runs.bind fun index => ?_
  refine (modRmOperand_runs mods _).bind fun target => ?_
  refine .ite ?_ (.ite (.pure _) ?_)
  · exact (immediate_runs _ _).bind fun _ => .pure _
  · rw [counter_eq, sure_bind]
    exact .pure _

theorem unaryGroup_runs (opcode : Nat) :
    Runs (unaryGroup mods opcode) (Opcodes.unaryGroup mods opcode) := by
  refine groupIndex_runs.bind fun index => .ite ?_ ?_
  · exact (modRmImmediate_runs mods rfl).bind fun _ => .pure _
  · refine (modRmOperand_runs mods _).bind fun target => ?_
    split <;> simp only [unaryMember]
    iterate 6 exact .pure _

theorem incrementGroup_runs (opcode : Nat) :
    Runs (incrementGroup mods opcode) (Opcodes.incrementGroup mods opcode) := by
  refine groupIndex_runs.bind fun index => ?_
  -- the members 2, 4 and 6 are those of `FF` alone
  rcases index with _ | _ | _ | _ | _ | _ | _ | _ <;> cases Opcodes.isByte opcode
  iterate 5 exact (modRmOperand_runs mods _).bind fun _ => .pure _
  iterate 3 exact .pure none
  · exact (modRmOperand_runs mods _).bind fun _ => .pure _
  iterate 3 exact .pure none
  · exact (modRmOperand_runs mods _).bind fun _ => .pure _
  iterate 3 exact .pure none

theorem bitMember_runs (op : BitOp) : Runs (bitMember mods op) (do
    let base ← Opcodes.modRmOperand mods (mods.operandWidth false)
    let i ← Immediate.decode .byte {}
    return some (.bitTest op base (.immediate i))) :=
  (modRmOperand_runs mods _).bind fun _ => (immediate_runs _ _).bind fun _ => .pure _

theorem bitGroup_runs : Runs (bitGroup mods) (Opcodes.bitGroup mods) := by
  refine groupIndex_runs.bind fun index => ?_
  rcases index with _ | _ | _ | _ | _ | _ | _ | _ | _
  iterate 4 exact .pure none
  iterate 4 exact bitMember_runs mods _
  exact .pure none

theorem onPair_runs {form : Form} (he : form.extended = false)
    (make : Operand → Operand → Instruction) :
    Runs (onPair mods form make) (Opcodes.onPair mods form make) :=
  (modRmPair_runs mods he).bind fun _ => .pure _

theorem exchangeAccumulator_eq (opcode : Nat) :
    exchangeAccumulator mods opcode = .ok (Opcodes.exchangeAccumulator mods opcode) := by
  unfold exchangeAccumulator
  dsimp only
  rw [opcodeRegister_eq, ok_bind, accumulator_eq]
  rfl

theorem oneByteSingle_runs (opcode : Nat) :
    Runs (oneByteSingle mods opcode) (Opcodes.oneByteSingle mods opcode) := by
  unfold oneByteSingle
  dsimp only
  split
  · exact (widening_runs mods _ _).map some
  · exact (immediate_runs _ _).bind fun _ => .pure _
  iterate 2 exact (productImmediate_runs mods _).map some
  · exact (immediate_runs _ _).bind fun _ => .pure _
  iterate 3 exact (immediateGroup_runs mods _).map some
  iterate 8 exact onPair_runs mods rfl _
  · exact addressOf_runs mods
  · exact memberZero_runs (popOperand_runs mods)
  iterate 10 exact .pure _
  iterate 2 exact (accumulatorImmediate_runs mods rfl).bind fun _ => .pure _
  iterate 6 exact .pure _
  iterate 6 exact (shiftGroup_runs mods _).map some
  · exact (fetchWord_runs (by decide)).bind fun _ => .pure _
  · exact .pure _
  iterate 2 exact memberZero_runs (moveImmediate_runs mods _)
  · exact .pure _
  iterate 4 exact (branchTarget_runs _).bind fun _ => .pure _
  · exact .pure _
  iterate 2 exact (unaryGroup_runs mods _).map some
  iterate 6 exact .pure _
  iterate 2 exact incrementGroup_runs mods _
  · simp only [Opcodes.oneByteSingle]
    exact .pure none

theorem oneByte_runs (opcode : Nat) :
    Runs (oneByte mods opcode) (Opcodes.oneByte mods opcode) := by
  unfold oneByte
  simp only [opcodeRegister_eq, exchangeAccumulator_eq, sure_bind]
  refine .ite ((classic_runs mods _).map some) (.ite (.pure _) (.ite (.pure _) (.ite ?_ ?_)))
  · exact (branchTarget_runs _).bind fun _ => .pure _
  refine .ite (.pure _) (.ite ((Runs.sure rfl).map some) (.ite ?_ (.ite ?_ ?_)))
  · exact (immediate_runs _ _).bind fun _ => .pure _
  · exact (immediate_runs _ _).bind fun _ => .pure _
  · exact oneByteSingle_runs mods opcode

theorem twoByte_runs (opcode : Nat) :
    Runs (twoByte mods opcode) (Opcodes.twoByte mods opcode) := by
  unfold twoByte Opcodes.twoByte
  simp only [opcodeRegister_eq, sure_bind]
  refine .ite ?_ (.ite ?_ (.ite ?_ (.ite (.pure _) ?_)))
  · exact onPair_runs mods rfl _
  · exact (branchTarget_runs _).bind fun _ => .pure _
  · exact (modRmOperand_runs mods _).bind fun _ => .pure _
  split <;> simp only [twoByteSingle]
  · exact memberZero_runs ((modRmOperand_runs mods _).bind fun _ => .pure _)
  iterate 5 exact onPair_runs mods rfl _
  iterate 4 exact (widening_runs mods _ _).map some
  · exact bitGroup_runs mods
  iterate 4 exact onPair_runs mods rfl _
  · exact .pure none

theorem decode_runs (map : OpcodeMap) (opcode : UInt8) :
    Runs (decode map mods opcode) (map.decode mods opcode) := by
  cases map with
  | oneByte => exact oneByte_runs mods _
  | twoByte => exact twoByte_runs mods _

theorem opcode?_runs : Runs opcode? Located.opcode? :=
  Runs.fetch.bind fun _ => .ite (Runs.fetch.bind fun _ => .pure _) (.pure _)

theorem body_runs : Runs (body mods) (Located.body mods) :=
  opcode?_runs.bind fun p => (decode_runs mods p.1 p.2).bind fun _ => .pure _

/-- Nothing that is found in memory crashes the decoder. -/
theorem at?_runs (fetch : Fetch) (start : UInt64) :
    Guard.Runs (at? fetch start) (Located.at? fetch start) := by
  unfold at? Located.at?
  generalize Modifiers.leading fetch start = lead
  obtain ⟨mods, a⟩ := lead
  change ((body mods fetch a).run >>= _) = _
  rw [body_runs mods fetch a, ok_bind]
  dsimp only
  cases Located.body mods fetch a <;> rfl

end LongMode.Guarded
