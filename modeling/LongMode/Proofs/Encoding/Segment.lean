import LongMode.Execute.Instruction
import LongMode.Proofs.Encoding.Prefix
/-!
The segment among the modifiers. It is handed on to the operands in memory and to string
instructions and decides nothing else: with another segment the same bytes are decoded to the same
instruction with that segment. What an instruction does, does not depend on its segment.
-/

namespace LongMode

variable {segment : Option SegmentRegister}

def Pointer.withSegment (segment : Option SegmentRegister) (p : Pointer) : Pointer :=
  { p with segment }

def Operand.withSegment (segment : Option SegmentRegister) : Operand → Operand
  | register r => register r
  | memory p => memory (p.withSegment segment)
  | immediate i => immediate i

@[simp] theorem Operand.withSegment_register (r : Register) :
    (register r).withSegment segment = register r := rfl

@[simp] theorem Operand.withSegment_immediate (i : Immediate) :
    (immediate i).withSegment segment = immediate i := rfl

def StringOp.withSegment (segment : Option SegmentRegister) (op : StringOp) : StringOp :=
  { op with segment }

def Instruction.withSegment (segment : Option SegmentRegister) : Instruction → Instruction
  | binary op dst src => binary op (dst.withSegment segment) (src.withSegment segment)
  | test dst src => test (dst.withSegment segment) (src.withSegment segment)
  | unary op target => unary op (target.withSegment segment)
  | multiply signed source => multiply signed (source.withSegment segment)
  | divide signed source => divide signed (source.withSegment segment)
  | multiplyInto dst src factor => multiplyInto (dst.withSegment segment)
      (src.withSegment segment) (factor.map (·.withSegment segment))
  | move dst src => move (dst.withSegment segment) (src.withSegment segment)
  | moveExtend signed dst src =>
    moveExtend signed (dst.withSegment segment) (src.withSegment segment)
  | loadAddress dst src => loadAddress (dst.withSegment segment) (src.withSegment segment)
  | exchange a b => exchange (a.withSegment segment) (b.withSegment segment)
  | exchangeAdd dst src => exchangeAdd (dst.withSegment segment) (src.withSegment segment)
  | moveIf cond dst src => moveIf cond (dst.withSegment segment) (src.withSegment segment)
  | setIf cond dst => setIf cond (dst.withSegment segment)
  | push source => push (source.withSegment segment)
  | pop target => pop (target.withSegment segment)
  | jump cond target => jump cond (target.withSegment segment)
  | call target => call (target.withSegment segment)
  | shift op target count => shift op (target.withSegment segment) (count.withSegment segment)
  | bitTest op base offset => bitTest op (base.withSegment segment) (offset.withSegment segment)
  | bitScan reverse dst src => bitScan reverse (dst.withSegment segment) (src.withSegment segment)
  | string op => string (op.withSegment segment)
  | nop operand => nop (operand.map (·.withSegment segment))
  | i => i

/-! Execution. -/

namespace Operand

@[simp] theorem width_withSegment (o : Operand) : (o.withSegment segment).width = o.width := by
  cases o <;> rfl

@[simp] theorem read_withSegment (o : Operand) (m : Machine) :
    (o.withSegment segment).read m = o.read m := by
  cases o <;> rfl

@[simp] theorem write_withSegment (o : Operand) (m : Machine) (v : UInt64) :
    (o.withSegment segment).write m v = o.write m v := by
  cases o <;> rfl

end Operand

namespace Execute

@[simp] theorem read_withSegment (o : Operand) (m : Machine) :
    read (o.withSegment segment) m = read o m := by
  unfold read
  rw [o.read_withSegment]

@[simp] theorem write_withSegment (o : Operand) (v : UInt64) (m : Machine) :
    write (o.withSegment segment) v m = write o v m := by
  unfold write
  rw [o.write_withSegment]

theorem bitPlace_withSegment (base offset : Operand) (raw : UInt64) (m : Machine) :
    bitPlace (base.withSegment segment) (offset.withSegment segment) raw m =
      bitPlace base offset raw m := by
  cases base <;> cases offset <;> rfl

end Execute

namespace StringOp

theorem loop_withSegment (op : StringOp) (whileEqual : Bool) (count : Nat) (m : Machine) :
    (op.withSegment segment).loop whileEqual count m = op.loop whileEqual count m := by
  induction count generalizing m with
  | zero => rfl
  | succ count ih =>
    unfold loop
    simp only [ih]
    rfl

theorem execute_withSegment (op : StringOp) (m : Machine) :
    (op.withSegment segment).execute m = op.execute m := by
  unfold execute
  simp only [loop_withSegment]
  rfl

end StringOp

/-- What an instruction does, does not depend on its segment. -/
theorem Instruction.execute_withSegment (i : Instruction) :
    (i.withSegment segment).execute = i.execute := by
  funext frame m
  cases i with
  | binary op dst src => simp [withSegment, execute, Execute.binary]
  | test dst src => simp [withSegment, execute, Execute.test]
  | unary op target => simp [withSegment, execute, Execute.unary]
  | multiply signed source => simp [withSegment, execute, Execute.multiply]
  | divide signed source => simp [withSegment, execute, Execute.divide]
  | multiplyInto dst src factor =>
    cases factor <;> simp [withSegment, execute, Execute.multiplyInto]
  | move dst src => simp [withSegment, execute, Execute.move]
  | moveExtend signed dst src => simp [withSegment, execute, Execute.moveExtend]
  | loadAddress dst src =>
    have hsrc : (src.withSegment segment).resolve m = src.resolve m := rfl
    simp [withSegment, execute, hsrc]
  | exchange a b => simp [withSegment, execute, Execute.exchange]
  | exchangeAdd dst src => simp [withSegment, execute, Execute.exchangeAdd]
  | moveIf cond dst src =>
    have hdst : (dst.withSegment segment).isMemory = dst.isMemory := by cases dst <;> rfl
    simp [withSegment, execute, Execute.moveIf, hdst]
  | setIf cond dst => simp [withSegment, execute, Execute.setIf]
  | push source => simp [withSegment, execute, Execute.push]
  | pop target => simp [withSegment, execute, Execute.pop]
  | jump cond target => simp [withSegment, execute, Execute.jumpIf]
  | call target => simp [withSegment, execute, Execute.call]
  | shift op target count => simp [withSegment, execute, Execute.shift]
  | bitTest op base offset =>
    simp [withSegment, execute, Execute.bitTest, Execute.bitPlace_withSegment]
  | bitScan reverse dst src => simp [withSegment, execute, Execute.bitScan]
  | string op => exact op.execute_withSegment m
  | nop operand => rfl
  | _ => rfl

/-! Decoding. -/

def ModRm.withSegment (segment : Option SegmentRegister) (m : ModRm) : ModRm :=
  { m with
    destination := m.destination.withSegment segment
    source := m.source.map (·.withSegment segment) }

def Part.withSegment (segment : Option SegmentRegister) : Part → Part
  | modRm m => modRm (m.withSegment segment)
  | immediate i => immediate i
  | register r => register r

def Operand.pairWithSegment (segment : Option SegmentRegister) (p : Operand × Operand) :
    Operand × Operand := (p.1.withSegment segment, p.2.withSegment segment)

namespace Modifiers

variable (m : Modifiers)

@[simp] theorem bits_withSegment : (m.withSegment segment).bits = m.bits := rfl

@[simp] theorem rex_withSegment : (m.withSegment segment).rex = m.rex := rfl

@[simp] theorem segment_withSegment : (m.withSegment segment).segment = segment := rfl

@[simp] theorem operandWidth_withSegment (byteSized : Bool) :
    (m.withSegment segment).operandWidth byteSized = m.operandWidth byteSized := rfl

@[simp] theorem stackWidth_withSegment :
    (m.withSegment segment).stackWidth = m.stackWidth := rfl

@[simp] theorem addressWidth_withSegment :
    (m.withSegment segment).addressWidth = m.addressWidth := rfl

end Modifiers

variable {mods : Modifiers}

theorem Sib.decode_withSegment (mode : Nat) :
    Sib.decode (mods.withSegment segment) mode = Sib.decode mods mode := rfl

namespace ModRm

theorem decodeBase_withSegment (mode field : Nat) (p : Pointer) :
    decodeBase (mods.withSegment segment) mode field (p.withSegment segment) =
      Pointer.withSegment segment <$> decodeBase mods mode field p := by
  unfold decodeBase
  rw [Sib.decode_withSegment]
  split_ifs <;> simp [Pointer.withSegment]

theorem decodeDisplacement_withSegment (mode : Nat) (p : Pointer) :
    decodeDisplacement mode (p.withSegment segment) =
      Pointer.withSegment segment <$> decodeDisplacement mode p := by
  unfold decodeDisplacement
  split_ifs <;> simp [Pointer.withSegment]

theorem decodeOperand_withSegment (mode field : Nat) (w : Width) :
    decodeOperand (mods.withSegment segment) mode field w =
      Operand.withSegment segment <$> decodeOperand mods mode field w := by
  unfold decodeOperand
  split_ifs
  · simp [Operand.withSegment]
  · have hbase : decodeBase (mods.withSegment segment) mode field
          { width := w, addressWidth := mods.addressWidth, segment } =
        Pointer.withSegment segment <$> decodeBase mods mode field
          { width := w, addressWidth := mods.addressWidth, segment := mods.segment } :=
      decodeBase_withSegment mode field
        { width := w, addressWidth := mods.addressWidth, segment := mods.segment }
    simp [hbase, decodeDisplacement_withSegment, Operand.withSegment]

@[simp] theorem decode_withSegment (rmWidth regWidth : Width) (form : Form) :
    decode (mods.withSegment segment) rmWidth regWidth form =
      ModRm.withSegment segment <$> decode mods rmWidth regWidth form := by
  unfold decode
  cases form.extended <;> simp [decodeOperand_withSegment, ModRm.withSegment, Operand.withSegment]

end ModRm

namespace Parts

theorem operands_withSegment (p : Part) :
    (p.withSegment segment).operands = p.operands.map (·.withSegment segment) := by
  cases p with
  | modRm m => cases hm : m.source <;> simp [Part.withSegment, Part.operands, ModRm.withSegment, hm]
  | immediate i => rfl
  | register r => rfl

theorem pair_withSegment (form : Form) (parts : List Part) :
    pair form (parts.map (Part.withSegment segment)) =
      (pair form parts).map (Operand.pairWithSegment segment) := by
  have hoperands : operands (parts.map (Part.withSegment segment)) =
      (operands parts).map (·.withSegment segment) := by
    unfold operands
    simp [List.flatMap_map, List.map_flatMap, operands_withSegment]
  have hleading : leading (parts.map (Part.withSegment segment)) =
      (leading parts).map (·.withSegment segment) := by
    unfold leading
    simp [List.filterMap_map, List.map_filterMap, operands_withSegment]
  unfold pair
  rw [hoperands, hleading]
  dsimp only
  rw [← apply_ite (List.map _), ← List.map_reverse, ← apply_ite (List.map _)]
  generalize (if form.swapped = true then _ else _) = all
  match all with
  | [] => rfl
  | [_] => rfl
  | [_, _] => rfl
  | _ :: _ :: _ :: _ => simp [Except.map]

end Parts

theorem Decoder.ofExcept_map {α β : Type} (f : α → β) (r : Except Misuse α) :
    ofExcept (r.map f) = f <$> ofExcept r := by
  cases r <;> rfl

namespace Opcodes

theorem pair_withSegment (form : Form) (parts : List Part) :
    Decoder.ofExcept (Parts.pair form (parts.map (Part.withSegment segment))) =
      Operand.pairWithSegment segment <$> Decoder.ofExcept (Parts.pair form parts) := by
  rw [Parts.pair_withSegment, Decoder.ofExcept_map]

@[simp] theorem modRmPair_withSegment (form : Form) :
    modRmPair (mods.withSegment segment) form =
      Operand.pairWithSegment segment <$> modRmPair mods form := by
  unfold modRmPair
  simp [← pair_withSegment, Part.withSegment]

@[simp] theorem modRmOperand_withSegment (w : Width) :
    modRmOperand (mods.withSegment segment) w =
      Operand.withSegment segment <$> modRmOperand mods w := by
  unfold modRmOperand
  simp [ModRm.withSegment]

@[simp] theorem modRmImmediate_withSegment (form : Form) :
    modRmImmediate (mods.withSegment segment) form =
      Operand.pairWithSegment segment <$> modRmImmediate mods form := by
  unfold modRmImmediate
  simp [← pair_withSegment, Part.withSegment]

@[simp] theorem accumulatorImmediate_withSegment (form : Form) :
    accumulatorImmediate (mods.withSegment segment) form =
      Operand.pairWithSegment segment <$> accumulatorImmediate mods form := by
  unfold accumulatorImmediate
  simp [← pair_withSegment, Part.withSegment]

theorem pair_modRm_withSegment (form : Form) (m : ModRm) :
    Decoder.ofExcept (Parts.pair form [.modRm (m.withSegment segment)]) =
      Operand.pairWithSegment segment <$> Decoder.ofExcept (Parts.pair form [.modRm m]) :=
  pair_withSegment form [.modRm m]

theorem widening_withSegment (rmWidth : Width) (signed : Bool) :
    widening (mods.withSegment segment) rmWidth signed =
      Instruction.withSegment segment <$> widening mods rmWidth signed := by
  unfold widening
  simp [pair_modRm_withSegment, Operand.pairWithSegment, Instruction.withSegment]

theorem classic_withSegment (opcode : Nat) :
    classic (mods.withSegment segment) opcode =
      Instruction.withSegment segment <$> classic mods opcode := by
  unfold classic
  simp only [modRmPair_withSegment, accumulatorImmediate_withSegment]
  split <;> simp [Operand.pairWithSegment, Instruction.withSegment]

theorem immediateGroup_withSegment (opcode : Nat) :
    immediateGroup (mods.withSegment segment) opcode =
      Instruction.withSegment segment <$> immediateGroup mods opcode := by
  unfold immediateGroup
  simp [Operand.pairWithSegment, Instruction.withSegment]

theorem productImmediate_withSegment (opcode : Nat) :
    productImmediate (mods.withSegment segment) opcode =
      Instruction.withSegment segment <$> productImmediate mods opcode := by
  unfold productImmediate
  simp [pair_modRm_withSegment, Operand.pairWithSegment, Instruction.withSegment,
    Operand.withSegment]

theorem addressOf_withSegment : addressOf (mods.withSegment segment) =
    Option.map (Instruction.withSegment segment) <$> addressOf mods := by
  unfold addressOf
  simp only [ModRm.decode_withSegment, Modifiers.operandWidth_withSegment, bind_map_left, map_bind]
  refine bind_congr fun m => ?_
  obtain ⟨mode, reg, rm, destination, source⟩ := m
  cases destination <;> cases source <;>
    simp [ModRm.withSegment, Operand.withSegment, Instruction.withSegment]

theorem memberZero_map {f : Instruction → Instruction} (member : Decoder Instruction) :
    memberZero (f <$> member) = Option.map f <$> memberZero member := by
  unfold memberZero
  rw [map_bind]
  refine bind_congr fun index => ?_
  split_ifs <;> simp

theorem popOperand_withSegment : popOperand (mods.withSegment segment) =
    Instruction.withSegment segment <$> popOperand mods := by
  unfold popOperand
  simp [Instruction.withSegment]

theorem moveImmediate_withSegment (opcode : Nat) :
    moveImmediate (mods.withSegment segment) opcode =
      Instruction.withSegment segment <$> moveImmediate mods opcode := by
  unfold moveImmediate
  simp [Operand.pairWithSegment, Instruction.withSegment]

theorem shiftGroup_withSegment (opcode : Nat) :
    shiftGroup (mods.withSegment segment) opcode =
      Instruction.withSegment segment <$> shiftGroup mods opcode := by
  unfold shiftGroup
  simp only [modRmOperand_withSegment, Modifiers.operandWidth_withSegment, bind_map_left, map_bind]
  refine bind_congr fun index => bind_congr fun target => ?_
  split_ifs <;> simp [Instruction.withSegment, Operand.withSegment]

theorem unaryGroup_withSegment (opcode : Nat) :
    unaryGroup (mods.withSegment segment) opcode =
      Instruction.withSegment segment <$> unaryGroup mods opcode := by
  unfold unaryGroup
  simp only [modRmOperand_withSegment, modRmImmediate_withSegment,
    Modifiers.operandWidth_withSegment, map_bind]
  refine bind_congr fun index => ?_
  split_ifs
  · simp [Operand.pairWithSegment, Instruction.withSegment]
  · simp only [bind_map_left, map_bind]
    refine bind_congr fun target => ?_
    split <;> simp [Instruction.withSegment]

theorem incrementGroup_withSegment (opcode : Nat) :
    incrementGroup (mods.withSegment segment) opcode =
      Option.map (Instruction.withSegment segment) <$> incrementGroup mods opcode := by
  unfold incrementGroup
  simp only [modRmOperand_withSegment, Modifiers.operandWidth_withSegment,
    Modifiers.stackWidth_withSegment, map_bind]
  refine bind_congr fun index => ?_
  split <;> simp [Instruction.withSegment]

theorem bitGroup_withSegment : bitGroup (mods.withSegment segment) =
    Option.map (Instruction.withSegment segment) <$> bitGroup mods := by
  unfold bitGroup
  simp only [modRmOperand_withSegment, Modifiers.operandWidth_withSegment, map_bind]
  refine bind_congr fun index => ?_
  split <;> simp [Instruction.withSegment, Operand.withSegment]

theorem onPair_withSegment (form : Form) (make : Operand → Operand → Instruction) :
    onPair (mods.withSegment segment) form make =
      onPair mods form fun a b => make (a.withSegment segment) (b.withSegment segment) := by
  unfold onPair
  simp [Operand.pairWithSegment]

theorem map_onPair (form : Form) (make : Operand → Operand → Instruction) :
    Option.map (Instruction.withSegment segment) <$> onPair mods form make =
      onPair mods form fun a b => (make a b).withSegment segment := by
  unfold onPair
  simp

theorem stringOp_withSegment (kind : StringKind) (byteSized : Bool) :
    stringOp (mods.withSegment segment) kind byteSized =
      (stringOp mods kind byteSized).withSegment segment := rfl

theorem opcodeRegister_withSegment (opcode : Nat) (w : Width) :
    opcodeRegister (mods.withSegment segment) opcode w = opcodeRegister mods opcode w := rfl

theorem oneByteSingle_withSegment (opcode : Nat) :
    oneByteSingle (mods.withSegment segment) opcode =
      Option.map (Instruction.withSegment segment) <$> oneByteSingle mods opcode := by
  unfold oneByteSingle
  split <;> simp [widening_withSegment, productImmediate_withSegment, immediateGroup_withSegment,
    onPair_withSegment, map_onPair, addressOf_withSegment, popOperand_withSegment, memberZero_map,
    stringOp_withSegment, shiftGroup_withSegment, moveImmediate_withSegment, branchTarget,
    unaryGroup_withSegment, incrementGroup_withSegment, Instruction.withSegment,
    Operand.pairWithSegment]

theorem oneByte_withSegment (opcode : Nat) :
    oneByte (mods.withSegment segment) opcode =
      Option.map (Instruction.withSegment segment) <$> oneByte mods opcode := by
  unfold oneByte
  simp only [Modifiers.bits_withSegment]
  split_ifs <;> simp [classic_withSegment, opcodeRegister_withSegment, exchangeAccumulator,
    oneByteSingle_withSegment, branchTarget, Instruction.withSegment]

theorem twoByte_withSegment (opcode : Nat) :
    twoByte (mods.withSegment segment) opcode =
      Option.map (Instruction.withSegment segment) <$> twoByte mods opcode := by
  unfold twoByte
  dsimp only
  by_cases hmove : opcode / 16 = 0x40 / 16
  · rw [if_pos hmove, if_pos hmove]
    simp [onPair_withSegment, map_onPair, Instruction.withSegment]
  by_cases hjump : opcode / 16 = 0x80 / 16
  · rw [if_neg hmove, if_pos hjump, if_neg hmove, if_pos hjump]
    simp [branchTarget, Instruction.withSegment]
  by_cases hset : opcode / 16 = 0x90 / 16
  · rw [if_neg hmove, if_neg hjump, if_pos hset, if_neg hmove, if_neg hjump, if_pos hset]
    simp [Instruction.withSegment]
  by_cases hswap : opcode / 8 = 0xC8 / 8
  · rw [if_neg hmove, if_neg hjump, if_neg hset, if_pos hswap, if_neg hmove, if_neg hjump,
      if_neg hset, if_pos hswap]
    rfl
  rw [if_neg hmove, if_neg hjump, if_neg hset, if_neg hswap, if_neg hmove, if_neg hjump,
    if_neg hset, if_neg hswap]
  split <;> simp [onPair_withSegment, map_onPair, ← memberZero_map, widening_withSegment,
    bitGroup_withSegment, Instruction.withSegment]

end Opcodes

/-- With another segment the same bytes are decoded to the same instruction with that segment. -/
theorem OpcodeMap.decode_withSegment (map : OpcodeMap) (opcode : UInt8) :
    map.decode (mods.withSegment segment) opcode =
      Option.map (Instruction.withSegment segment) <$> map.decode mods opcode := by
  cases map with
  | oneByte => exact Opcodes.oneByte_withSegment opcode.toNat
  | twoByte => exact Opcodes.twoByte_withSegment opcode.toNat

namespace Located

/-- The same for what stands behind the modifiers. -/
theorem body_withSegment : body (mods.withSegment segment) =
    (fun r => (r.1, r.2.1, r.2.2.map (Instruction.withSegment segment))) <$> body mods := by
  unfold body
  simp [OpcodeMap.decode_withSegment]

theorem body_withSegment_apply (mods : Modifiers) (f : Fetch) (a : UInt64) :
    body (mods.withSegment segment) f a = (body mods f a).map fun r =>
      ((r.1.1, r.1.2.1, r.1.2.2.map (Instruction.withSegment segment)), r.2) := by
  rw [body_withSegment, Decoder.map_apply]

def withSegment (segment : Option SegmentRegister) (l : Located) : Located :=
  { l with
    modifiers := l.modifiers.withSegment segment
    instruction := l.instruction.map (Instruction.withSegment segment) }

end Located

end LongMode
