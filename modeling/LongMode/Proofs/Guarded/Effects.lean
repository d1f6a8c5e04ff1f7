import LongMode.Proofs.Encoding.Named
import LongMode.Proofs.Guarded.Access
/-!
The effect of each instruction, guarded: every access to registers and memory is, and products,
quotients, shifts and bit positions are calculated in words. None crashes at the width of a word or
less, where what is written is a place.
-/

namespace LongMode

/-- What is read of an operand does not exceed its width. -/
theorem Execute.read_lt {o : Operand} (h : o.Named) {m : Machine} {v : UInt64}
    (hv : Execute.read o m = .ok v) : v.toNat < o.width.modulus := by
  have hv : o.read m = .ok v := ok_of_orFault hv
  cases o with
  | register r =>
    cases hv
    exact r.fetch_lt _
  | memory p => exact Memory.readWord_lt hv
  | immediate i =>
    cases hv
    exact h

namespace Guarded

def holds (frame : Frame) (cond : Condition) (m : Machine) : Except Crash Bool := do
  let counter ← getRegister m (.counter frame.addressWidth)
  return cond.holds m.flags counter

def binary (op : BinaryOp) (dst src : Operand) (m : Machine) : Guard Machine := do
  let a ← read dst m
  let b ← read src m
  let (result, flags) := Execute.binaryResult op a b (isOn m.flags.carry) dst.width
  let written ← if op = .cmp then pure m else write dst result m
  return written.define flags

def test (dst src : Operand) (m : Machine) : Guard Machine := do
  let a ← read dst m
  let b ← read src m
  return m.define (Arithmetic.logic (a &&& b) dst.width)

def unary (op : UnaryOp) (target : Operand) (m : Machine) : Guard Machine := do
  let v ← read target m
  let (result, flags) := Execute.unaryResult op v target.width
  let written ← write target result m
  return written.define flags

def setPair (w : Width) (low high : UInt64) (m : Machine) : Except Crash Machine :=
  if w = .byte then setRegister m (.accumulator .word) ((high <<< 8) ||| low)
  else do
    let written ← setRegister m (.accumulator w) low
    setRegister written (.data w) high

def multiply (signed : Bool) (source : Operand) (m : Machine) : Guard Machine := do
  let w := source.width
  let a ← Guard.sure (getRegister m (.accumulator w))
  let b ← read source m
  let p ← Guard.sure (if signed then mulSigned a b w else mulUnsigned a b w)
  let written ← Guard.sure (setPair w p.low p.high m)
  return written.define (Execute.overflowFlags p.overflow)

def halves (w : Width) (m : Machine) : Except Crash (UInt64 × UInt64) :=
  if w = .byte then do
    let ax ← getRegister m (.accumulator .word)
    return (ax >>> 8, ax &&& 0xFF)
  else do
    let high ← getRegister m (.data w)
    let low ← getRegister m (.accumulator w)
    return (high, low)

def divide (frame : Frame) (signed : Bool) (source : Operand) (m : Machine) : Guard Machine := do
  let w := source.width
  let divisor ← read source m
  let (high, low) ← Guard.sure (halves w m)
  let result? ← Guard.sure (if signed then divSigned high low divisor w
    else divUnsigned high low divisor w)
  match result? with
  | none => throw (.fault (.divideError frame.start))
  | some (quotient, remainder) => Guard.sure (setPair w quotient remainder m)

def multiplyInto (dst src : Operand) (factor : Option Operand) (m : Machine) : Guard Machine := do
  let w := dst.width
  let a ← read (if factor.isSome then src else dst) m
  let b ← read (factor.getD src) m
  let p ← Guard.sure (mulSigned a b w)
  let written ← write dst p.low m
  return written.define (Execute.overflowFlags p.overflow)

def move (dst src : Operand) (m : Machine) : Guard Machine := do
  let v ← read src m
  write dst v m

def moveExtend (signed : Bool) (dst src : Operand) (m : Machine) : Guard Machine := do
  let v ← read src m
  let extended := if signed then src.width.signExtend v else v
  write dst (extended &&& dst.width.mask) m

def loadAddress (dst : Operand) (src : Pointer) (m : Machine) : Guard Machine := do
  let a ← Guard.sure (resolve src m)
  write dst a m

def exchange (a b : Operand) (m : Machine) : Guard Machine := do
  let left ← read a m
  let right ← read b m
  let written ← write a right m
  write b left written

def exchangeAdd (dst src : Operand) (m : Machine) : Guard Machine := do
  let a ← read dst m
  let b ← read src m
  let (sum, flags) := Arithmetic.add a b false dst.width
  let copied ← write src a m
  let written ← write dst sum copied
  return written.define flags

def moveIf (frame : Frame) (cond : Condition) (dst src : Operand) (m : Machine) :
    Guard Machine := do
  let v ← read src m
  if ← Guard.sure (holds frame cond m) then write dst v m
  else if dst.width = .dword && !dst.isMemory then
    let current ← read dst m
    write dst current m
  else return m

def setIf (frame : Frame) (cond : Condition) (dst : Operand) (m : Machine) : Guard Machine := do
  let set ← Guard.sure (holds frame cond m)
  write dst (if set then 1 else 0) m

def swapBytes (target : Register) (m : Machine) : Except Crash Machine := do
  let v ← getRegister m target
  setRegister m target (Execute.swapped v target.width)

def widenAccumulator (w : Width) (m : Machine) : Except Crash Machine := do
  let v ← getRegister m (.accumulator w.half)
  setRegister m (.accumulator w) (w.half.signExtend v)

def spreadSign (w : Width) (m : Machine) : Except Crash Machine := do
  let v ← getRegister m (.accumulator w)
  setRegister m (.data w) (if v &&& w.signBit != 0 then w.mask else 0)

def push (source : Operand) (m : Machine) : Guard Machine := do
  let v ← read source m
  Guard.sure (pushWord m source.width v)

def pop (target : Operand) (m : Machine) : Guard Machine := do
  let (v, popped) ← popWord m target.width
  write target v popped

def popFlags (w : Width) (m : Machine) : Guard Machine := do
  let (image, popped) ← popWord m w
  return popped.define (.ofWord image)

def jumpIf (frame : Frame) (cond : Condition) (target : Operand) (m : Machine) :
    Guard Machine := do
  let destination ← read target m
  let taken ← Guard.sure (holds frame cond m)
  return if taken then Execute.jump frame destination m else m

def call (frame : Frame) (target : Operand) (m : Machine) : Guard Machine := do
  let destination ← read target m
  let pushed ← Guard.sure (pushWord m .qword m.ip)
  return Execute.jump frame destination pushed

def ret (frame : Frame) (release : UInt16) (m : Machine) : Guard Machine := do
  let (destination, popped) ← popWord m .qword
  let top ← Guard.sure (getRegister popped .stackPointer)
  let released ← Guard.sure (setRegister popped .stackPointer (top + release.toUInt64))
  return Execute.jump frame destination released

def shiftBy (op : ShiftOp) (target count : Operand) (m : Machine) : Guard Machine := do
  let v ← read target m
  let amount ← read count m
  let result? ← Guard.sure (shift op v amount target.width (isOn m.flags.carry))
  match result? with
  | none => return m
  | some (result, flags) =>
    let written ← write target result m
    return written.define flags

def bitPlace (base offset : Operand) (raw : UInt64) (m : Machine) :
    Except Crash (Option UInt64 × Nat) :=
  let w := base.width
  match base with
  | .memory p => do
    let a ← resolve p m
    if offset.isRegister then do
      let (start, bit) ← bitElement (offset.width.toInt raw) w
      return (some (a + UInt64.ofInt start), bit)
    else do
      let bit ← remainder raw.toNat w.bits
      return (some a, bit)
  | _ => do
    let bit ← remainder raw.toNat w.bits
    return (none, bit)

def bitTest (op : BitOp) (base offset : Operand) (m : Machine) : Guard Machine := do
  let w := base.width
  let raw ← read offset m
  let (address?, bit) ← Guard.sure (bitPlace base offset raw m)
  let v ← match address? with
    | some a => readMemory m a w
    | none => read base m
  let mask ← Guard.sure (shiftLeft 1 bit)
  let written ← match Execute.bitResult op v mask, address? with
    | some new, some a => Guard.sure (writeMemory m a w new)
    | some new, none => write base new m
    | none, _ => pure m
  return written.define (Execute.carryFlags (v &&& mask != 0))

def bitScan (reverse : Bool) (dst src : Operand) (m : Machine) : Guard Machine := do
  let v ← read src m
  if v = 0 then return m.define (Execute.zeroFlags true)
  else
    let position ← Guard.sure (if reverse then highestBit v else .ok (Execute.lowestBit v 64 0))
    let written ← write dst (UInt64.ofNat position) m
    return written.define (Execute.zeroFlags false)

def loadFlags (m : Machine) : Except Crash Machine := do
  let loaded := Flags.ofWord (← getRegister m .highAccumulator)
  return m.define
    { sign := loaded.sign, zero := loaded.zero, auxiliary := loaded.auxiliary
      parity := loaded.parity, carry := loaded.carry }

def storeFlags (m : Machine) : Except Crash Machine :=
  setRegister m .highAccumulator (m.flags.toWord &&& 0xFF)

def leave (w : Width) (m : Machine) : Except Crash Outcome := do
  let base ← getRegister m (.basePointer .qword)
  let dropped ← setRegister m .stackPointer base
  whole dropped do
    let (saved, popped) ← popWord dropped w
    Guard.sure (setRegister popped (.basePointer w) saved)

open Guard Execute

variable {m : Machine} {frame : Frame} {source target dst src : Operand}

theorem holds_eq (frame : Frame) (cond : Condition) (m : Machine) :
    holds frame cond m = .ok (Execute.holds frame cond m) := by
  unfold holds
  rw [getRegister_eq]
  rfl

theorem binary_runs (op : BinaryOp) (hp : dst.isPlace) :
    Runs (binary op dst src m) (Execute.binary op dst src m) := by
  refine (read_runs m dst).bind fun a _ => (read_runs m src).bind fun b _ => ?_
  dsimp only
  split_ifs
  · exact .pure _
  · exact (write_runs m hp _).bind fun _ _ => .pure _

theorem test_runs : Runs (test dst src m) (Execute.test dst src m) :=
  (read_runs m dst).bind fun _ _ => (read_runs m src).bind fun _ _ => .pure _

theorem unary_runs (op : UnaryOp) (hp : target.isPlace) :
    Runs (unary op target m) (Execute.unary op target m) :=
  (read_runs m target).bind fun _ _ => (write_runs m hp _).bind fun _ _ => .pure _

theorem setPair_eq (w : Width) (low high : UInt64) (m : Machine) :
    setPair w low high m = .ok (Execute.setPair w low high m) := by
  unfold setPair Execute.setPair
  split_ifs
  · rw [setRegister_eq]
  · rw [setRegister_eq, ok_bind, setRegister_eq]

theorem multiply_runs (signed : Bool) (hw : source.width.bytes ≤ 8) :
    Runs (multiply signed source m) (Execute.multiply signed source m) := by
  unfold multiply Execute.multiply
  dsimp only
  rw [getRegister_eq, sure_bind]
  refine (read_runs m source).bind fun b _ => ?_
  rw [mulSigned_eq _ b hw, mulUnsigned_eq _ b hw, ← apply_ite Except.ok, sure_bind]
  rw [setPair_eq, sure_bind]
  exact .pure _

theorem multiplyInto_runs (factor : Option Operand) (hw : dst.width.bytes ≤ 8) (hp : dst.isPlace) :
    Runs (multiplyInto dst src factor m) (Execute.multiplyInto dst src factor m) := by
  refine (read_runs m _).bind fun a _ => (read_runs m _).bind fun b _ => ?_
  rw [mulSigned_eq a b hw, sure_bind]
  exact (write_runs m hp _).bind fun _ _ => .pure _

theorem halves_eq (w : Width) (m : Machine) : halves w m = .ok (if w = .byte then
    (m.get (.accumulator .word) >>> 8, m.get (.accumulator .word) &&& 0xFF)
    else (m.get (.data w), m.get (.accumulator w))) := by
  unfold halves
  simp only [getRegister_eq, ok_bind]
  split_ifs <;> rfl

/-- Each half of a dividend has the width of the divisor. -/
theorem halves_lt {w : Width} {high low : UInt64} (h : halves w m = .ok (high, low)) :
    high.toNat < w.modulus ∧ low.toNat < w.modulus := by
  rw [halves_eq] at h
  split_ifs at h with hbyte
  · cases h
    subst hbyte
    refine ⟨?_, Width.mask_lt .byte _⟩
    have hword := m.get_general_lt 0 .word
    change _ < 2 ^ 16 at hword
    change _ < 2 ^ 8
    rw [UInt64.toNat_shiftRight, Nat.shiftRight_eq_div_pow]
    exact Nat.div_lt_of_lt_mul hword
  · cases h
    exact ⟨m.get_general_lt 2 _, m.get_general_lt 0 _⟩

theorem divide_runs (signed : Bool) (hw : source.width.bytes ≤ 8) (hn : source.Named) :
    Runs (divide frame signed source m) (Execute.divide frame signed source m) := by
  refine (read_runs m source).bind fun divisor hd => ?_
  have hdivisor := read_lt hn hd
  have hlt := @halves_lt m source.width
  dsimp only
  rw [halves_eq] at hlt ⊢
  rw [sure_bind]
  generalize (if source.width = .byte then
    (m.get (.accumulator .word) >>> 8, m.get (.accumulator .word) &&& 0xFF)
    else (m.get (.data source.width), m.get (.accumulator source.width))) = pair at hlt ⊢
  obtain ⟨hhigh, hlow⟩ := hlt rfl
  rw [divSigned_eq hw hhigh hlow hdivisor, divUnsigned_eq divisor hw hlow]
  rw [← apply_ite Except.ok, sure_bind]
  generalize (if signed then Arithmetic.divSigned pair.1 pair.2 divisor source.width
    else Arithmetic.divUnsigned pair.1 pair.2 divisor source.width) = result?
  cases result? with
  | none => rfl
  | some r => exact .sure (setPair_eq _ _ _ _)

theorem move_runs (hp : dst.isPlace) : Runs (move dst src m) (Execute.move dst src m) :=
  (read_runs m src).bind fun _ _ => write_runs m hp _

theorem moveExtend_runs (signed : Bool) (hp : dst.isPlace) :
    Runs (moveExtend signed dst src m) (Execute.moveExtend signed dst src m) :=
  (read_runs m src).bind fun _ _ => write_runs m hp _

theorem loadAddress_runs {p : Pointer} (hp : dst.isPlace) :
    Runs (loadAddress dst p m) (Execute.write dst (p.resolve m) m) := by
  unfold loadAddress
  rw [resolve_eq, sure_bind]
  exact write_runs m hp _

theorem exchange_runs (hdst : dst.isPlace) (hsrc : src.isPlace) :
    Runs (exchange dst src m) (Execute.exchange dst src m) :=
  (read_runs m dst).bind fun _ _ => (read_runs m src).bind fun _ _ =>
    (write_runs m hdst _).bind fun written _ => write_runs written hsrc _

theorem exchangeAdd_runs (hdst : dst.isPlace) (hsrc : src.isPlace) :
    Runs (exchangeAdd dst src m) (Execute.exchangeAdd dst src m) :=
  (read_runs m dst).bind fun _ _ => (read_runs m src).bind fun _ _ =>
    (write_runs m hsrc _).bind fun copied _ => (write_runs copied hdst _).bind fun _ _ => .pure _

theorem moveIf_runs (cond : Condition) (hp : dst.isPlace) :
    Runs (moveIf frame cond dst src m) (Execute.moveIf frame cond dst src m) := by
  refine (read_runs m src).bind fun v _ => ?_
  rw [holds_eq, sure_bind]
  refine .ite (write_runs m hp v) (.ite ?_ (.pure m))
  exact (read_runs m dst).bind fun current _ => write_runs m hp current

theorem setIf_runs (cond : Condition) (hp : dst.isPlace) :
    Runs (setIf frame cond dst m) (Execute.setIf frame cond dst m) := by
  unfold setIf
  rw [holds_eq, sure_bind]
  exact write_runs m hp _

theorem swapBytes_eq (target : Register) (m : Machine) :
    swapBytes target m = .ok (Execute.swapBytes target m) := by
  unfold swapBytes
  rw [getRegister_eq, ok_bind, setRegister_eq]
  rfl

theorem widenAccumulator_eq (w : Width) (m : Machine) :
    widenAccumulator w m = .ok (Execute.widenAccumulator w m) := by
  unfold widenAccumulator
  rw [getRegister_eq, ok_bind, setRegister_eq]
  rfl

theorem spreadSign_eq (w : Width) (m : Machine) :
    spreadSign w m = .ok (Execute.spreadSign w m) := by
  unfold spreadSign
  rw [getRegister_eq, ok_bind, setRegister_eq]
  rfl

theorem push_runs : Runs (push source m) (Execute.push source m) :=
  (read_runs m source).bind fun _ _ => .sure (pushWord_eq _ _ _)

theorem pop_runs (hp : target.isPlace) : Runs (pop target m) (Execute.pop target m) :=
  (popWord_runs m _).bind fun s _ => write_runs s.2 hp s.1

theorem popFlags_runs (w : Width) : Runs (popFlags w m) (Execute.popFlags w m) :=
  (popWord_runs m w).bind fun _ _ => .pure _

theorem leave_eq (w : Width) (m : Machine) : leave w m = .ok (Execute.leave w m) := by
  unfold leave
  rw [getRegister_eq, ok_bind, setRegister_eq, ok_bind]
  exact whole_of_runs _ ((popWord_runs _ w).bind fun _ _ => .sure (setRegister_eq _ _ _))

theorem jumpIf_runs (cond : Condition) :
    Runs (jumpIf frame cond target m) (Execute.jumpIf frame cond target m) := by
  refine (read_runs m target).bind fun _ _ => ?_
  rw [holds_eq, sure_bind]
  exact .pure _

theorem call_runs : Runs (call frame target m) (Execute.call frame target m) := by
  refine (read_runs m target).bind fun _ _ => ?_
  rw [pushWord_eq, sure_bind]
  exact .pure _

theorem ret_runs (release : UInt16) : Runs (ret frame release m) (Execute.ret frame release m) := by
  refine (popWord_runs m _).bind fun s _ => ?_
  dsimp only
  rw [getRegister_eq, sure_bind, setRegister_eq, sure_bind]
  exact .pure _

theorem shiftBy_runs (op : ShiftOp) (hw : dst.width.bytes ≤ 8) (hp : dst.isPlace) :
    Runs (shiftBy op dst src m) (Execute.shift op dst src m) := by
  refine (read_runs m dst).bind fun v _ => (read_runs m src).bind fun amount _ => ?_
  rw [shift_eq op v amount hw, sure_bind]
  cases Arithmetic.shift op v amount dst.width (isOn m.flags.carry) with
  | none => exact .pure m
  | some r => exact (write_runs m hp r.1).bind fun _ _ => .pure _

theorem bitPlace_eq (base offset : Operand) (raw : UInt64) (m : Machine) :
    bitPlace base offset raw m = .ok (Execute.bitPlace base offset raw m) ∧
      (Execute.bitPlace base offset raw m).2 < base.width.bits := by
  have hpos := base.width.bits_pos
  have hrest : remainder raw.toNat base.width.bits = .ok (raw.toNat % base.width.bits) :=
    remainder_ok hpos.ne'
  have hlt : raw.toNat % base.width.bits < base.width.bits := Nat.mod_lt _ hpos
  unfold bitPlace Execute.bitPlace
  dsimp only
  cases base with
  | register r | immediate i => exact ⟨by rw [hrest]; rfl, hlt⟩
  | memory p =>
    dsimp only
    rw [resolve_eq, ok_bind]
    split_ifs
    · rw [bitElement_eq _ (Width.toInt_lower _ _) (Width.toInt_upper _ _)]
      refine ⟨rfl, ?_⟩
      have hsigned : (0 : Int) < (Operand.memory p).width.bits := by exact_mod_cast hpos
      have hupper := Int.fmod_lt_of_pos (offset.width.toInt raw) hsigned
      have hlower := Int.fmod_nonneg_of_pos (offset.width.toInt raw) hsigned
      omega
    · exact ⟨by rw [hrest]; rfl, hlt⟩

theorem bitTest_runs (op : BitOp) (hw : dst.width.bytes ≤ 8) (hp : dst.isPlace) :
    Runs (bitTest op dst src m) (Execute.bitTest op dst src m) := by
  refine (read_runs m src).bind fun raw _ => ?_
  obtain ⟨hplace, hbit⟩ := bitPlace_eq dst src raw m
  rw [hplace, sure_bind]
  generalize Execute.bitPlace dst src raw m = place at hbit ⊢
  have hbits := Width.bits_le hw
  obtain ⟨address?, bit⟩ := place
  have hmask := shiftLeft_ok 1 (show bit < 64 from hbit.trans_le hbits)
  cases address? with
  | some a =>
    refine (readMemory_runs m a _).bind fun v _ => ?_
    dsimp only
    rw [hmask, sure_bind]
    cases Execute.bitResult op v (1 <<< UInt64.ofNat bit) with
    | none => exact .pure _
    | some new =>
      dsimp only
      rw [writeMemory_eq]
      exact .pure _
  | none =>
    refine (read_runs m dst).bind fun v _ => ?_
    dsimp only
    rw [hmask, sure_bind]
    cases Execute.bitResult op v (1 <<< UInt64.ofNat bit) with
    | none => exact .pure _
    | some new => exact (write_runs m hp new).bind fun _ _ => .pure _

theorem bitScan_runs (reverse : Bool) (hp : dst.isPlace) :
    Runs (bitScan reverse dst src m) (Execute.bitScan reverse dst src m) := by
  refine (read_runs m src).bind fun v _ => ?_
  by_cases h0 : v = 0
  · rw [if_pos h0, if_pos h0]
    exact .pure _
  · rw [if_neg h0, if_neg h0, highestBit_eq h0, ← apply_ite Except.ok, sure_bind]
    exact (write_runs m hp _).bind fun _ _ => .pure _

theorem loadFlags_eq (m : Machine) : loadFlags m = .ok (Execute.loadFlags m) := by
  unfold loadFlags
  rw [getRegister_eq]
  rfl

theorem storeFlags_eq (m : Machine) : storeFlags m = .ok (Execute.storeFlags m) :=
  setRegister_eq _ _ _

end Guarded

end LongMode
