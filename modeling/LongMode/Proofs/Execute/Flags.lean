import LongMode.Proofs.Execute.Faults
/-!
The flags that an instruction can change. However it ends, it has laid a partial set over the live
flags that defines no others; so every other flag is the old one, and no defined flag has become
undefined.
-/

namespace LongMode

inductive Flag where
  | carry
  | auxiliary
  | overflow
  | zero
  | sign
  | parity
  | direction
  | interrupt
deriving DecidableEq, Repr

namespace Flag

def ofSum : List Flag := [carry, auxiliary, overflow, zero, sign, parity]

def ofLogic : List Flag := [carry, overflow, zero, sign, parity]

def all : List Flag := [carry, auxiliary, overflow, zero, sign, parity, direction, interrupt]

end Flag

namespace Flags

def get (f : Flags) : Flag → Option Bool
  | .carry => f.carry
  | .auxiliary => f.auxiliary
  | .overflow => f.overflow
  | .zero => f.zero
  | .sign => f.sign
  | .parity => f.parity
  | .direction => f.direction
  | .interrupt => f.interrupt

/-- The partial set defines no other flags than these. -/
def Within (ks : List Flag) (f : Flags) : Prop := ∀ k ∉ ks, f.get k = none

@[simp] theorem get_overlap (live p : Flags) (k : Flag) :
    (live.overlap p).get k = (p.get k).or (live.get k) := by
  cases k <;> rfl

theorem ext_get {f g : Flags} (h : ∀ k, f.get k = g.get k) : f = g :=
  Flags.ext (h .carry) (h .auxiliary) (h .overflow) (h .zero) (h .sign) (h .parity) (h .direction)
    (h .interrupt)

theorem overlap_assoc (f p q : Flags) : (f.overlap p).overlap q = f.overlap (p.overlap q) := by
  simp only [overlap, zipWith, Option.or_assoc]

theorem Within.overlap {ks : List Flag} {p q : Flags} (hp : p.Within ks) (hq : q.Within ks) :
    (p.overlap q).Within ks := by
  intro k hk
  rw [get_overlap, hp k hk, hq k hk]
  rfl

theorem within_all (f : Flags) : f.Within Flag.all := by
  intro k hk
  cases k <;> exact absurd (by decide) hk

theorem within_undefined (ks : List Flag) : Within ks .undefined := by
  intro k _
  cases k <;> rfl

end Flags

/-- A partial set that defines only flags of the list has been laid over the flags of `m`. -/
def Machine.Overlaid (ks : List Flag) (m n : Machine) : Prop :=
  ∃ p : Flags, p.Within ks ∧ n.flags = m.flags.overlap p

namespace Machine.Overlaid

variable {ks : List Flag} {m n k : Machine}

theorem refl : m.Overlaid ks m :=
  ⟨.undefined, Flags.within_undefined ks, m.flags.overlap_undefined.symm⟩

theorem trans (h : m.Overlaid ks n) (h' : n.Overlaid ks k) : m.Overlaid ks k := by
  obtain ⟨p, hp, hn⟩ := h
  obtain ⟨q, hq, hk⟩ := h'
  exact ⟨p.overlap q, hp.overlap hq, by rw [hk, hn, Flags.overlap_assoc]⟩

theorem set (h : m.Overlaid ks n) (r : Register) (v : UInt64) : m.Overlaid ks (n.set r v) := h

theorem writeWord (h : m.Overlaid ks n) (a : UInt64) (w : Width) (v : UInt64) :
    m.Overlaid ks (n.writeWord a w v) := h

theorem define (h : m.Overlaid ks n) {p : Flags} (hp : p.Within ks) : m.Overlaid ks (n.define p) :=
  h.trans ⟨p, hp, rfl⟩

theorem push (h : m.Overlaid ks n) (w : Width) (v : UInt64) : m.Overlaid ks (n.push w v) := h

theorem jump (h : m.Overlaid ks n) (frame : Frame) (a : UInt64) :
    m.Overlaid ks (Execute.jump frame a n) := by
  unfold Execute.jump
  split_ifs
  · exact h
  · exact h

theorem pop {w : Width} {v : UInt64} (h : m.Overlaid ks n) (hp : n.pop w = .ok (v, k)) :
    m.Overlaid ks k := by
  obtain ⟨x, -, hp⟩ := ok_of_bind hp
  cases hp
  exact h

/-- A flag that is not in the list has its old value. -/
theorem get (h : m.Overlaid ks n) {f : Flag} (hf : f ∉ ks) : n.flags.get f = m.flags.get f := by
  obtain ⟨p, hp, hn⟩ := h
  rw [hn, Flags.get_overlap, hp f hf]
  rfl

theorem flags_eq (h : m.Overlaid [] n) : n.flags = m.flags :=
  Flags.ext_get fun _ => h.get List.not_mem_nil

/-- A flag that is defined stays so. -/
theorem isSome (h : m.Overlaid ks n) {f : Flag} (hf : (m.flags.get f).isSome) :
    (n.flags.get f).isSome := by
  obtain ⟨p, -, hn⟩ := h
  rw [hn, Flags.get_overlap, Option.isSome_or, hf, Bool.or_true]

end Machine.Overlaid

def Overlaying (ks : List Flag) (m : Machine) (r : Except Halt Machine) : Prop :=
  ∀ n, r = .ok n → m.Overlaid ks n

namespace Overlaying

variable {ks : List Flag} {m n : Machine} {α : Type}

theorem ok (h : m.Overlaid ks n) : Overlaying ks m (.ok n) := by
  intro n' hn
  cases hn
  exact h

theorem error (e : Halt) : Overlaying ks m (.error e) := by
  intro n hn
  cases hn

theorem bind {r : Except Halt α} {f : α → Except Halt Machine} (hf : ∀ x, Overlaying ks m (f x)) :
    Overlaying ks m (r >>= f) := by
  intro n hn
  obtain ⟨x, -, hn⟩ := ok_of_bind hn
  exact hf x n hn

/-- What gives a machine is followed by something that goes on from there. -/
theorem seq {r : Except Halt Machine} {f : Machine → Except Halt Machine} (hr : Overlaying ks m r)
    (hf : ∀ x, m.Overlaid ks x → Overlaying ks m (f x)) : Overlaying ks m (r >>= f) := by
  intro n hn
  obtain ⟨x, hx, hn⟩ := ok_of_bind hn
  exact hf x (hr x hx) n hn

theorem write (h : m.Overlaid ks n) (o : Operand) (v : UInt64) :
    Overlaying ks m (Execute.write o v n) := by
  cases o with
  | register r | memory p => exact ok h
  | immediate i => exact error _

/-- A result is written and then its flags are laid over the live ones. -/
theorem write_define {p : Flags} (hp : p.Within ks) (o : Operand) (v : UInt64) :
    Overlaying ks m (Execute.write o v m >>= fun n => .ok (n.define p)) :=
  .seq (.write .refl o v) fun _ h => .ok (h.define hp)

theorem orFault_pop {w : Width} {f : UInt64 × Machine → Except Halt Machine} (h : m.Overlaid ks n)
    (hf : ∀ s, m.Overlaid ks s.2 → Overlaying ks m (f s)) :
    Overlaying ks m (orFault (n.pop w) >>= f) := by
  intro k hk
  obtain ⟨s, hs, hk⟩ := ok_of_bind hk
  exact hf s (h.pop (ok_of_orFault hs)) k hk

theorem whole {r : Except Halt Machine} (h : Overlaying ks m r) :
    m.Overlaid ks (Outcome.whole m r).machine := by
  cases hr : r with
  | ok n => exact h n hr
  | error e => exact .refl

end Overlaying

/-! The flags that instructions define, in some run or other. -/

def BinaryOp.defines : BinaryOp → List Flag
  | and | or | xor => Flag.ofLogic
  | add | adc | sub | sbb | cmp => Flag.ofSum

def UnaryOp.defines : UnaryOp → List Flag
  | inc | dec => [.auxiliary, .overflow, .zero, .sign, .parity]
  | not => []
  | neg => Flag.ofSum

def ShiftOp.defines : ShiftOp → List Flag
  | rol | ror | rcl | rcr => [.carry, .overflow]
  | shl | shr | sal | sar => Flag.ofLogic

def FlagOp.defines : FlagOp → List Flag
  | clearCarry | setCarry | complementCarry => [.carry]
  | clearDirection | setDirection => [.direction]
  | clearInterrupt | setInterrupt => [.interrupt]

def StringKind.defines (kind : StringKind) : List Flag := if kind.compares then Flag.ofSum else []

def Instruction.defines : Instruction → List Flag
  | binary op _ _ => op.defines
  | test _ _ => Flag.ofLogic
  | unary op _ => op.defines
  | multiply _ _ | multiplyInto _ _ _ => [.carry, .overflow]
  | exchangeAdd _ _ => Flag.ofSum
  | popFlags _ => Flag.all
  | shift op _ _ => op.defines
  | bitTest _ _ _ => [.carry]
  | bitScan _ _ _ => [.zero]
  | flag op => op.defines
  | loadFlags => [.carry, .auxiliary, .zero, .sign, .parity]
  | string op => op.kind.defines
  | divide _ _ | move _ _ | moveExtend _ _ _ | loadAddress _ _ | exchange _ _ | moveIf _ _ _
  | setIf _ _ | swapBytes _ | widenAccumulator _ | spreadSign _ | push _ | pop _ | pushFlags _
  | leave _ | jump _ _ | call _ | ret _ | storeFlags | nop _ => []

/-! The flags that calculations define. -/

theorem Arithmetic.add_within (a b : UInt64) (c : Bool) (w : Width) :
    (add a b c w).2.Within Flag.ofSum := by
  intro k hk
  cases k <;> first | rfl | exact absurd (by decide) hk

theorem Arithmetic.sub_within (a b : UInt64) (c : Bool) (w : Width) :
    (sub a b c w).2.Within Flag.ofSum := by
  intro k hk
  cases k <;> first | rfl | exact absurd (by decide) hk

theorem Arithmetic.logic_within (r : UInt64) (w : Width) : (logic r w).Within Flag.ofLogic := by
  intro k hk
  cases k <;> first | rfl | exact absurd (by decide) hk

theorem Arithmetic.rotateFlags_within (n : Nat) (carry overflow : Bool) :
    (rotateFlags n carry overflow).Within [.carry, .overflow] := by
  intro k hk
  cases k <;> first | rfl | exact absurd (by decide) hk

theorem Arithmetic.shiftFlags_within (n : Nat) (carry overflow : Bool) (r : UInt64) (w : Width) :
    (shiftFlags n carry overflow r w).Within Flag.ofLogic := by
  intro k hk
  cases k <;> first | rfl | exact absurd (by decide) hk

namespace Execute

variable {m : Machine} {frame : Frame} {o dst src : Operand}

theorem carryFlags_within (b : Bool) : (carryFlags b).Within [.carry] := by
  intro k hk
  cases k <;> first | rfl | exact absurd (by decide) hk

theorem zeroFlags_within (b : Bool) : (zeroFlags b).Within [.zero] := by
  intro k hk
  cases k <;> first | rfl | exact absurd (by decide) hk

theorem overflowFlags_within (b : Bool) : (overflowFlags b).Within [.carry, .overflow] := by
  intro k hk
  cases k <;> first | rfl | exact absurd (by decide) hk

theorem binaryResult_within (op : BinaryOp) (a b : UInt64) (c : Bool) (w : Width) :
    (binaryResult op a b c w).2.Within op.defines := by
  cases op with
  | add | adc => exact Arithmetic.add_within _ _ _ _
  | sub | sbb | cmp => exact Arithmetic.sub_within _ _ _ _
  | and | or | xor => exact Arithmetic.logic_within _ _

theorem unaryResult_within (op : UnaryOp) (v : UInt64) (w : Width) :
    (unaryResult op v w).2.Within op.defines := by
  cases op with
  | neg => exact Arithmetic.sub_within _ _ _ _
  | not => exact Flags.within_undefined _
  | inc | dec =>
    intro k hk
    cases k <;> first | rfl | exact absurd (by decide) hk

theorem shift_within {op : ShiftOp} {v n r : UInt64} {w : Width} {c : Bool} {f : Flags}
    (h : Arithmetic.shift op v n w c = some (r, f)) :
    f.Within op.defines := by
  unfold Arithmetic.shift at h
  dsimp only at h
  split_ifs at h
  obtain ⟨-, rfl⟩ := Prod.mk.inj (Option.some.inj h)
  cases op with
  | rol | ror | rcl | rcr => exact Arithmetic.rotateFlags_within _ _ _
  | shl | sal | shr | sar => exact Arithmetic.shiftFlags_within _ _ _ _ _

theorem flagResult_within (op : FlagOp) (live : Flags) :
    (flagResult op live).Within op.defines := by
  intro k hk
  cases op <;> cases k <;> first | rfl | exact absurd (by decide) hk

theorem setPair_overlaid {ks : List Flag} (w : Width) (low high : UInt64) :
    m.Overlaid ks (setPair w low high m) := by
  unfold setPair
  split_ifs
  · exact .refl
  · exact .refl

theorem binary_overlaying (op : BinaryOp) :
    Overlaying op.defines m (binary op dst src m) := by
  refine .bind fun a => .bind fun b => ?_
  have hf := binaryResult_within op a b (isOn m.flags.carry) dst.width
  dsimp only
  split_ifs
  · exact .ok (.define .refl hf)
  · exact .write_define hf _ _

theorem shift_overlaying (op : ShiftOp) :
    Overlaying op.defines m (shift op dst src m) := by
  refine .bind fun v => .bind fun n => ?_
  split
  case h_1 => exact .ok .refl
  case h_2 r f h => exact .write_define (shift_within h) _ _

theorem divide_overlaying (signed : Bool) : Overlaying [] m (divide frame signed o m) := by
  refine .bind fun divisor => ?_
  dsimp only
  split
  · exact .error _
  · exact .ok (setPair_overlaid _ _ _)

theorem exchangeAdd_overlaying : Overlaying Flag.ofSum m (exchangeAdd dst src m) :=
  .bind fun a => .bind fun b => .seq (.write .refl _ _) fun _ h =>
    .seq (.write h _ _) fun _ h => .ok (h.define (Arithmetic.add_within a b false dst.width))

theorem moveIf_overlaying (cond : Condition) : Overlaying [] m (moveIf frame cond dst src m) := by
  refine .bind fun v => ?_
  split_ifs
  · exact .write .refl _ _
  · exact .bind fun _ => .write .refl _ _
  · exact .ok .refl

theorem leave_overlaid (w : Width) : m.Overlaid [] (leave w m).machine :=
  Overlaying.whole (m := m.set .stackPointer (m.get (.basePointer .qword)))
    (.orFault_pop .refl fun s h => .ok (h.set (.basePointer w) s.1))

theorem bitTest_overlaying (op : BitOp) : Overlaying [.carry] m (bitTest op dst src m) := by
  refine .bind fun raw => ?_
  dsimp only
  generalize bitPlace dst src raw m = place
  obtain ⟨address?, bit⟩ := place
  cases address? with
  | some a =>
    refine .bind fun v => ?_
    cases bitResult op v (1 <<< UInt64.ofNat bit) with
    | none => exact .ok (.define .refl (carryFlags_within _))
    | some new =>
      exact .ok ((Machine.Overlaid.writeWord .refl a _ new).define (carryFlags_within _))
  | none =>
    refine .bind fun v => ?_
    cases bitResult op v (1 <<< UInt64.ofNat bit) with
    | none => exact .ok (.define .refl (carryFlags_within _))
    | some new => exact .write_define (carryFlags_within _) _ _

theorem bitScan_overlaying (reverse : Bool) : Overlaying [.zero] m (bitScan reverse dst src m) := by
  refine .bind fun v => ?_
  by_cases hv : v = 0
  · rw [if_pos hv]
    exact .ok (.define .refl (zeroFlags_within true))
  · rw [if_neg hv]
    exact .write_define (zeroFlags_within false) _ _

end Execute

namespace StringOp

variable {op : StringOp} {m n : Machine}

theorem element_overlaid (h : op.element m = .ok n) :
    m.Overlaid op.kind.defines n := by
  unfold element at h
  cases hk : op.kind <;> simp only [hk] at h
  case move | load =>
    obtain ⟨v, -, h⟩ := ok_of_bind h
    cases h
    exact .refl
  case store =>
    cases h
    exact .refl
  case compare =>
    obtain ⟨left, -, h⟩ := ok_of_bind h
    obtain ⟨right, -, h⟩ := ok_of_bind h
    cases h
    exact .define .refl (Arithmetic.sub_within left right false op.width)
  case scan =>
    obtain ⟨right, -, h⟩ := ok_of_bind h
    cases h
    exact .define .refl (Arithmetic.sub_within _ right false op.width)

/-- The elements of a repetition lay their flags one over the other. -/
theorem loop_overlaid (op : StringOp) (whileEqual : Bool) (count : Nat) (m : Machine) :
    m.Overlaid op.kind.defines (op.loop whileEqual count m).machine := by
  induction count generalizing m with
  | zero => exact .refl
  | succ count ih =>
    unfold loop
    cases he : op.element m with
    | error f => exact .refl
    | ok next =>
      have h := (element_overlaid he).set op.counter (UInt64.ofNat count)
      dsimp only
      split_ifs
      · exact h
      · exact h.trans (ih _)

theorem execute_overlaid (op : StringOp) (m : Machine) :
    m.Overlaid op.kind.defines (op.execute m).machine := by
  have whole : m.Overlaid op.kind.defines
      (Outcome.whole m (orFault (op.element m))).machine := by
    cases he : op.element m with
    | error f => exact .refl
    | ok next => exact element_overlaid he
  unfold execute
  split
  · exact loop_overlaid op true _ m
  · exact loop_overlaid op false _ m
  · exact whole
  · exact whole

end StringOp

namespace Instruction

open Execute

/-- However an instruction ends, it has laid none but its own flags over the live ones. -/
theorem execute_overlaid (i : Instruction) (frame : Frame) (m : Machine) :
    m.Overlaid i.defines (i.execute frame m).machine := by
  cases i with
  | binary op dst src => exact (binary_overlaying op).whole
  | test dst src =>
    exact (Overlaying.bind fun a => .bind fun b =>
      .ok (.define .refl (Arithmetic.logic_within (a &&& b) dst.width))).whole
  | unary op target =>
    exact (Overlaying.bind fun v =>
      .write_define (unaryResult_within op v target.width) target _).whole
  | multiply signed source =>
    exact (Overlaying.bind fun b =>
      .ok ((setPair_overlaid _ _ _).define (overflowFlags_within _))).whole
  | divide signed source => exact (divide_overlaying signed).whole
  | multiplyInto dst src factor =>
    exact (Overlaying.bind fun a => .bind fun b =>
      .write_define (overflowFlags_within _) dst _).whole
  | move dst src => exact (Overlaying.bind fun v => .write .refl _ _).whole
  | moveExtend signed dst src => exact (Overlaying.bind fun v => .write .refl _ _).whole
  | loadAddress dst src => exact (Overlaying.write .refl _ _).whole
  | exchange a b =>
    exact (Overlaying.bind fun x => .bind fun y => .seq (.write .refl _ _) fun _ h =>
      .write h _ _).whole
  | exchangeAdd dst src => exact exchangeAdd_overlaying.whole
  | moveIf cond dst src => exact (moveIf_overlaying cond).whole
  | setIf cond dst => exact (Overlaying.write .refl _ _).whole
  | push source => exact (Overlaying.bind fun v => .ok (.push .refl source.width v)).whole
  | pop target => exact (Overlaying.orFault_pop .refl fun _ h => .write h _ _).whole
  | popFlags w =>
    exact (Overlaying.orFault_pop .refl fun _ h => .ok (h.define (Flags.within_all _))).whole
  | leave w => exact leave_overlaid w
  | jump cond target =>
    refine (Overlaying.bind fun d => .ok ?_).whole
    split_ifs
    · exact .jump .refl frame d
    · exact .refl
  | call target =>
    exact (Overlaying.bind fun d => .ok (.jump (.push .refl .qword m.ip) frame d)).whole
  | ret release =>
    refine (Overlaying.orFault_pop .refl fun s h => .ok ?_).whole
    exact .jump (h.set .stackPointer _) frame s.1
  | shift op target count => exact (shift_overlaying op).whole
  | bitTest op base offset => exact (bitTest_overlaying op).whole
  | bitScan reverse dst src => exact (bitScan_overlaying reverse).whole
  | flag op => exact .define .refl (flagResult_within op m.flags)
  | loadFlags =>
    refine .define .refl fun k hk => ?_
    cases k <;> first | rfl | exact absurd (by decide) hk
  | string op => exact op.execute_overlaid m
  | swapBytes _ | widenAccumulator _ | spreadSign _ | pushFlags _ | storeFlags | nop _ =>
    exact .refl

end Instruction

end LongMode
