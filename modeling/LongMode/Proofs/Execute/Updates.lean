import LongMode.Proofs.Execute.Faults
/-!
What an instruction can change. It writes registers, memory words and flags, and nothing else; after
that a jump that is taken, a call or a return moves the instruction pointer, and no other instruction
does.
-/

namespace LongMode

/-- The machine comes from `m` by writes to registers, memory and flags. -/
inductive Machine.Updates (m : Machine) : Machine → Prop
  | refl : Updates m m
  | set {n : Machine} (h : Updates m n) (r : Register) (v : UInt64) : Updates m (n.set r v)
  | writeWord {n : Machine} (h : Updates m n) (a : UInt64) (w : Width) (v : UInt64) :
    Updates m (n.writeWord a w v)
  | define {n : Machine} (h : Updates m n) (flags : Flags) : Updates m (n.define flags)

namespace Machine.Updates

variable {m n k : Machine}

theorem trans (h : m.Updates n) (h' : n.Updates k) : m.Updates k := by
  induction h' with
  | refl => exact h
  | set _ r v ih => exact ih.set r v
  | writeWord _ a w v ih => exact ih.writeWord a w v
  | define _ flags ih => exact ih.define flags

theorem ip (h : m.Updates n) : n.ip = m.ip := by
  induction h with
  | refl => rfl
  | set _ _ _ ih | writeWord _ _ _ _ ih | define _ _ ih => exact ih

theorem push (h : m.Updates n) (w : Width) (v : UInt64) : m.Updates (n.push w v) :=
  (h.set _ _).writeWord _ _ _

theorem pop {w : Width} {v : UInt64} (h : m.Updates n) (hp : n.pop w = .ok (v, k)) :
    m.Updates k := by
  obtain ⟨x, -, hp⟩ := ok_of_bind hp
  cases hp
  exact h.set _ _

end Machine.Updates

def Updating (m : Machine) (r : Except Halt Machine) : Prop := ∀ n, r = .ok n → m.Updates n

namespace Updating

variable {m n : Machine} {α : Type}

theorem ok (h : m.Updates n) : Updating m (.ok n) := by
  intro n' hn
  cases hn
  exact h

theorem error (e : Halt) : Updating m (.error e) := by
  intro n hn
  cases hn

theorem bind {r : Except Halt α} {f : α → Except Halt Machine}
    (hf : ∀ x, r = .ok x → Updating m (f x)) : Updating m (r >>= f) := by
  intro n hn
  obtain ⟨x, hx, hn⟩ := ok_of_bind hn
  exact hf x hx n hn

/-- What writes the machine itself is followed by something that goes on from there. -/
theorem seq {r : Except Halt Machine} {f : Machine → Except Halt Machine} (hr : Updating m r)
    (hf : ∀ x, m.Updates x → Updating m (f x)) : Updating m (r >>= f) :=
  bind fun x hx => hf x (hr x hx)

theorem ite {c : Prop} [Decidable c] {r s : Except Halt Machine} (hr : Updating m r)
    (hs : Updating m s) : Updating m (if c then r else s) := by
  split_ifs
  · exact hr
  · exact hs

theorem write (h : m.Updates n) (o : Operand) (v : UInt64) : Updating m (Execute.write o v n) := by
  cases o with
  | register r => exact ok (h.set r v)
  | memory p => exact ok (h.writeWord _ _ _)
  | immediate i => exact error _

theorem orFault_pop {w : Width} {f : UInt64 × Machine → Except Halt Machine} (h : m.Updates n)
    (hf : ∀ s, m.Updates s.2 → Updating m (f s)) : Updating m (orFault (n.pop w) >>= f) :=
  bind fun s hs => hf s (h.pop (ok_of_orFault hs))

end Updating

namespace Execute

open Machine.Updates

variable {m n : Machine} {frame : Frame} {o dst src : Operand}

theorem setPair_updates (w : Width) (low high : UInt64) : m.Updates (setPair w low high m) := by
  unfold setPair
  split_ifs
  · exact refl.set _ _
  · exact (refl.set _ _).set _ _

theorem binary_updates (op : BinaryOp) : Updating m (binary op dst src m) := by
  refine .bind fun a _ => .bind fun b _ => ?_
  dsimp only
  split_ifs
  · exact .ok (refl.define _)
  · exact .seq (.write refl _ _) fun _ h => .ok (h.define _)

theorem test_updates : Updating m (test dst src m) :=
  .bind fun _ _ => .bind fun _ _ => .ok (refl.define _)

theorem unary_updates (op : UnaryOp) : Updating m (unary op o m) :=
  .bind fun _ _ => .seq (.write refl _ _) fun _ h => .ok (h.define _)

theorem multiply_updates (signed : Bool) : Updating m (multiply signed o m) :=
  .bind fun _ _ => .ok ((setPair_updates _ _ _).define _)

theorem divide_updates (signed : Bool) : Updating m (divide frame signed o m) := by
  refine .bind fun divisor _ => ?_
  dsimp only
  split
  · exact .error _
  · exact .ok (setPair_updates _ _ _)

theorem multiplyInto_updates (factor : Option Operand) :
    Updating m (multiplyInto dst src factor m) :=
  .bind fun _ _ => .bind fun _ _ => .seq (.write refl _ _) fun _ h => .ok (h.define _)

theorem move_updates : Updating m (move dst src m) := .bind fun _ _ => .write refl _ _

theorem moveExtend_updates (signed : Bool) : Updating m (moveExtend signed dst src m) :=
  .bind fun _ _ => .write refl _ _

theorem exchange_updates : Updating m (exchange dst src m) :=
  .bind fun _ _ => .bind fun _ _ => .seq (.write refl _ _) fun _ h => .write h _ _

theorem exchangeAdd_updates : Updating m (exchangeAdd dst src m) :=
  .bind fun _ _ => .bind fun _ _ => .seq (.write refl _ _) fun _ h =>
    .seq (.write h _ _) fun _ h => .ok (h.define _)

theorem moveIf_updates (cond : Condition) : Updating m (moveIf frame cond dst src m) :=
  .bind fun _ _ => .ite (.write refl _ _)
    (.ite (.bind fun _ _ => .write refl _ _) (.ok refl))

theorem push_updates : Updating m (push o m) := .bind fun _ _ => .ok (refl.push _ _)

theorem pop_updates : Updating m (pop o m) := .orFault_pop refl fun _ h => .write h _ _

theorem popFlags_updates (w : Width) : Updating m (popFlags w m) :=
  .orFault_pop refl fun _ h => .ok (h.define _)

theorem leave_updates {w : Width} (h : leave w m = .done n) : m.Updates n := by
  refine Updating.orFault_pop (f := fun s => .ok (s.2.set (.basePointer w) s.1)) (refl.set _ _)
    (fun _ h => .ok (h.set _ _)) n (Outcome.whole_eq_done.1 h)

theorem shift_updates (op : ShiftOp) : Updating m (shift op dst src m) := by
  refine .bind fun v _ => .bind fun amount _ => ?_
  split
  · exact .ok refl
  · exact .seq (.write refl _ _) fun _ h => .ok (h.define _)

theorem bitTest_updates (op : BitOp) : Updating m (bitTest op dst src m) := by
  refine .bind fun raw _ => ?_
  dsimp only
  generalize bitPlace dst src raw m = place
  obtain ⟨address?, bit⟩ := place
  cases address? with
  | some a =>
    refine .bind fun v _ => ?_
    cases bitResult op v (1 <<< UInt64.ofNat bit) with
    | none => exact .ok (refl.define _)
    | some new => exact .ok ((refl.writeWord _ _ _).define _)
  | none =>
    refine .bind fun v _ => ?_
    cases bitResult op v (1 <<< UInt64.ofNat bit) with
    | none => exact .ok (refl.define _)
    | some new => exact .seq (.write refl _ _) fun _ h => .ok (h.define _)

theorem bitScan_updates (reverse : Bool) : Updating m (bitScan reverse dst src m) :=
  .bind fun _ _ => .ite (.ok (refl.define _))
    (.seq (.write refl _ _) fun _ h => .ok (h.define _))

end Execute

namespace StringOp

open Machine.Updates

variable {m n : Machine}

theorem advance_updates {k : Machine} (h : k.Updates m) (op : StringOp) (r : Register) :
    k.Updates (op.advance r m) := h.set _ _

theorem element_updates {op : StringOp} (h : op.element m = .ok n) : m.Updates n := by
  unfold element at h
  cases hk : op.kind <;> simp only [hk] at h
  case move =>
    obtain ⟨v, -, h⟩ := ok_of_bind h
    cases h
    exact advance_updates (advance_updates (refl.writeWord _ _ _) op _) op _
  case compare =>
    obtain ⟨left, -, h⟩ := ok_of_bind h
    obtain ⟨right, -, h⟩ := ok_of_bind h
    cases h
    exact advance_updates (advance_updates (refl.define _) op _) op _
  case store =>
    cases h
    exact advance_updates (refl.writeWord _ _ _) op _
  case load =>
    obtain ⟨v, -, h⟩ := ok_of_bind h
    cases h
    exact advance_updates (refl.set _ _) op _
  case scan =>
    obtain ⟨right, -, h⟩ := ok_of_bind h
    cases h
    exact advance_updates (refl.define _) op _

/-- However it ends, a repetition has done nothing but write. -/
theorem loop_updates (op : StringOp) (whileEqual : Bool) (count : Nat) (m : Machine) :
    m.Updates (op.loop whileEqual count m).machine := by
  induction count generalizing m with
  | zero => exact refl
  | succ count ih =>
    unfold loop
    cases he : op.element m with
    | error f => exact refl
    | ok next =>
      have h := (element_updates he).set op.counter (UInt64.ofNat count)
      dsimp only
      split_ifs
      · exact h
      · exact h.trans (ih _)

theorem execute_updates (op : StringOp) (m : Machine) : m.Updates (op.execute m).machine := by
  have whole : m.Updates (Outcome.whole m (orFault (op.element m))).machine := by
    cases he : op.element m with
    | error f => exact refl
    | ok next => exact element_updates he
  unfold execute
  split
  · exact loop_updates op true _ m
  · exact loop_updates op false _ m
  · exact whole
  · exact whole

end StringOp

namespace Instruction

open Execute Machine.Updates

/-- Where the instruction hands control on to: a jump that is taken, a call and a return do. -/
def destination? (i : Instruction) (frame : Frame) (m : Machine) : Option UInt64 :=
  match i with
  | jump cond target => if holds frame cond m then (target.read m).toOption else none
  | call target => (target.read m).toOption
  | ret _ => (m.readWord (m.get .stackPointer) .qword).toOption
  | _ => none

def nextIp (i : Instruction) (frame : Frame) (m : Machine) : UInt64 :=
  if frame.jumps then (i.destination? frame m).getD m.ip else m.ip

variable {i : Instruction} {frame : Frame} {m n k : Machine} {target : Operand}

theorem jump_machine {a : UInt64} (hi : i.destination? frame m = some a) (h : m.Updates n) :
    ∃ k, m.Updates k ∧ Execute.jump frame a n = { k with ip := i.nextIp frame m } := by
  refine ⟨n, h, ?_⟩
  unfold Execute.jump nextIp
  rw [hi, Option.getD_some]
  split_ifs
  · rfl
  · rw [← h.ip]

theorem stay_machine (hi : i.destination? frame m = none) (h : m.Updates n) :
    ∃ k, m.Updates k ∧ n = { k with ip := i.nextIp frame m } := by
  refine ⟨n, h, ?_⟩
  unfold nextIp
  rw [hi, Option.getD_none, ite_self, ← h.ip]

theorem jumpIf_machine {cond : Condition} (hx : jumpIf frame cond target m = .ok n) :
    ∃ k, m.Updates k ∧ n = { k with ip := (jump cond target).nextIp frame m } := by
  obtain ⟨a, ha, hx⟩ := ok_of_bind hx
  cases hx
  have ha : target.read m = .ok a := ok_of_orFault ha
  have hd : (jump cond target).destination? frame m =
      if holds frame cond m then some a else none := by
    simp only [destination?, ha, Except.toOption]
  split_ifs at hd ⊢
  · exact jump_machine hd refl
  · exact stay_machine hd refl

theorem call_machine (hx : Execute.call frame target m = .ok n) :
    ∃ k, m.Updates k ∧ n = { k with ip := (call target).nextIp frame m } := by
  obtain ⟨a, ha, hx⟩ := ok_of_bind hx
  cases hx
  have ha : target.read m = .ok a := ok_of_orFault ha
  exact jump_machine (by simp only [destination?, ha, Except.toOption]) (refl.push .qword m.ip)

theorem ret_machine {release : UInt16} (hx : Execute.ret frame release m = .ok n) :
    ∃ k, m.Updates k ∧ n = { k with ip := (ret release).nextIp frame m } := by
  obtain ⟨⟨a, popped⟩, hp, hx⟩ := ok_of_bind hx
  cases hx
  have hp : m.pop .qword = .ok (a, popped) := ok_of_orFault hp
  have ha : m.readWord (m.get .stackPointer) .qword = .ok a := by
    obtain ⟨v, hv, hp⟩ := ok_of_bind hp
    cases hp
    exact hv
  exact jump_machine (by simp only [destination?, ha, Except.toOption]) ((refl.pop hp).set _ _)

/-- An instruction that completes has done nothing but write and then, where it hands control on,
set the instruction pointer. -/
theorem execute_updates (hx : i.execute frame m = .done n) :
    ∃ k, m.Updates k ∧ n = { k with ip := i.nextIp frame m } := by
  have whole {r : Except Halt Machine} (hi : i.destination? frame m = none) (hr : Updating m r)
      (hx : Outcome.whole m r = .done n) : ∃ k, m.Updates k ∧ n = { k with ip := i.nextIp frame m } :=
    stay_machine hi (hr n (Outcome.whole_eq_done.1 hx))
  cases i with
  | binary op dst src => exact whole rfl (binary_updates op) hx
  | test dst src => exact whole rfl test_updates hx
  | unary op target => exact whole rfl (unary_updates op) hx
  | multiply signed source => exact whole rfl (multiply_updates signed) hx
  | divide signed source => exact whole rfl (divide_updates signed) hx
  | multiplyInto dst src factor => exact whole rfl (multiplyInto_updates factor) hx
  | move dst src => exact whole rfl move_updates hx
  | moveExtend signed dst src => exact whole rfl (moveExtend_updates signed) hx
  | loadAddress dst src => exact whole rfl (.write refl _ _) hx
  | exchange a b => exact whole rfl exchange_updates hx
  | exchangeAdd dst src => exact whole rfl exchangeAdd_updates hx
  | moveIf cond dst src => exact whole rfl (moveIf_updates cond) hx
  | setIf cond dst => exact whole rfl (.write refl _ _) hx
  | push source => exact whole rfl push_updates hx
  | pop target => exact whole rfl pop_updates hx
  | popFlags w => exact whole rfl (popFlags_updates w) hx
  | leave w => exact stay_machine rfl (leave_updates hx)
  | jump cond target => exact jumpIf_machine (Outcome.whole_eq_done.1 hx)
  | call target => exact call_machine (Outcome.whole_eq_done.1 hx)
  | ret release => exact ret_machine (Outcome.whole_eq_done.1 hx)
  | shift op target count => exact whole rfl (shift_updates op) hx
  | bitTest op base offset => exact whole rfl (bitTest_updates op) hx
  | bitScan reverse dst src => exact whole rfl (bitScan_updates reverse) hx
  | string op =>
    have h := op.execute_updates m
    change op.execute m = .done n at hx
    rw [hx] at h
    exact stay_machine rfl h
  | swapBytes target => cases hx; exact stay_machine rfl (refl.set _ _)
  | widenAccumulator w => cases hx; exact stay_machine rfl (refl.set _ _)
  | spreadSign w => cases hx; exact stay_machine rfl (refl.set _ _)
  | pushFlags w => cases hx; exact stay_machine rfl (refl.push _ _)
  | flag op => cases hx; exact stay_machine rfl (refl.define _)
  | loadFlags => cases hx; exact stay_machine rfl (refl.define _)
  | storeFlags => cases hx; exact stay_machine rfl (refl.set _ _)
  | nop operand => cases hx; exact stay_machine rfl refl

/-- So has one that halts, and it has not handed control on. -/
theorem execute_halted_updates {h : Halt} (hx : i.execute frame m = .halted h n) :
    m.Updates n := by
  by_cases hr : i.repeats = false
  · obtain rfl | ⟨w, -, rfl⟩ := execute_halted_machine hr hx
    · exact refl
    · exact refl.set _ _
  · cases i with
    | string op =>
      have hu := op.execute_updates m
      change op.execute m = _ at hx
      rwa [hx] at hu
    | _ => exact absurd rfl hr

end Instruction

end LongMode
