import LongMode.Proofs.Execute.Faults
import LongMode.Proofs.Memory
import LongMode.Proofs.Run.Step
/-!
Instructions that read an operand in memory and write it back. The address is worked out for each
access. Nothing changes a register between the two accesses except in `XADD`, which copies the old
value to its register operand first; so this is the one instruction that may store elsewhere than
where it has read.
-/

namespace LongMode

theorem Operand.eq_register {o : Operand} (h : o.isRegister) : ∃ q, o = .register q := by
  cases o with
  | register q => exact ⟨q, rfl⟩
  | memory p | immediate i => cases h

namespace Execute

variable {m n : Machine} {p : Pointer} {q : Register} {src : Operand} {v : UInt64}

theorem write_memory (h : write (.memory p) v m = .ok n) :
    n = m.writeWord (p.resolve m) p.width v := by
  cases h
  rfl

theorem write_register (h : write (.register q) v m = .ok n) : n = m.set q v := by
  cases h
  rfl

theorem binary_stores {op : BinaryOp} (hop : op ≠ .cmp)
    (hx : binary op (.memory p) src m = .ok n) :
    ∃ v b, m.readWord (p.resolve m) p.width = .ok v ∧ src.read m = .ok b ∧
      m.memory.Stored n.memory (p.resolve m) p.width
        (binaryResult op v b (isOn m.flags.carry) p.width).1 := by
  obtain ⟨v, hv, hx⟩ := ok_of_bind hx
  obtain ⟨b, hb, hx⟩ := ok_of_bind hx
  simp only [if_neg hop] at hx
  obtain ⟨written, hwritten, hx⟩ := ok_of_bind hx
  cases hx
  rw [write_memory hwritten]
  exact ⟨v, b, ok_of_orFault hv, ok_of_orFault hb, Memory.stored_writeWord _ _ _ _⟩

theorem unary_stores {op : UnaryOp} (hx : unary op (.memory p) m = .ok n) :
    ∃ v, m.readWord (p.resolve m) p.width = .ok v ∧
      m.memory.Stored n.memory (p.resolve m) p.width (unaryResult op v p.width).1 := by
  obtain ⟨v, hv, hx⟩ := ok_of_bind hx
  obtain ⟨written, hwritten, hx⟩ := ok_of_bind hx
  cases hx
  rw [write_memory hwritten]
  exact ⟨v, ok_of_orFault hv, Memory.stored_writeWord _ _ _ _⟩

/-- A shift by nothing leaves its target alone, and so stores the old value. -/
theorem shift_stores {op : ShiftOp} (hx : shift op (.memory p) src m = .ok n) :
    ∃ v k, m.readWord (p.resolve m) p.width = .ok v ∧ src.read m = .ok k ∧
      m.memory.Stored n.memory (p.resolve m) p.width
        (((Arithmetic.shift op v k p.width (isOn m.flags.carry)).map Prod.fst).getD v) := by
  obtain ⟨v, hv, hx⟩ := ok_of_bind hx
  obtain ⟨k, hk, hx⟩ := ok_of_bind hx
  refine ⟨v, k, ok_of_orFault hv, ok_of_orFault hk, ?_⟩
  cases hs : Arithmetic.shift op v k p.width (isOn m.flags.carry) with
  | none =>
    simp only [Operand.width, hs] at hx
    cases hx
    exact Memory.stored_of_readWord (ok_of_orFault hv)
  | some result =>
    obtain ⟨r, flags⟩ := result
    simp only [Operand.width, hs] at hx
    obtain ⟨written, hwritten, hx⟩ := ok_of_bind hx
    cases hx
    rw [write_memory hwritten]
    exact Memory.stored_writeWord _ _ _ _

theorem exchange_stores (hx : exchange (.memory p) (.register q) m = .ok n) :
    ∃ v r, m.readWord (p.resolve m) p.width = .ok v ∧ (Operand.register q).read m = .ok r ∧
      m.memory.Stored n.memory (p.resolve m) p.width r := by
  obtain ⟨v, hv, hx⟩ := ok_of_bind hx
  obtain ⟨r, hr, hx⟩ := ok_of_bind hx
  obtain ⟨written, hwritten, hx⟩ := ok_of_bind hx
  rw [write_register hx, write_memory hwritten]
  exact ⟨v, r, ok_of_orFault hv, ok_of_orFault hr, Memory.stored_writeWord _ _ _ _⟩

/-- The register is written first, and the address worked out after that. -/
theorem exchangeAdd_stores (hx : exchangeAdd (.memory p) (.register q) m = .ok n) :
    ∃ v b, m.readWord (p.resolve m) p.width = .ok v ∧ (Operand.register q).read m = .ok b ∧
      m.memory.Stored n.memory (p.resolve (m.set q v)) p.width
        (Arithmetic.add v b false p.width).1 := by
  obtain ⟨v, hv, hx⟩ := ok_of_bind hx
  obtain ⟨b, hb, hx⟩ := ok_of_bind hx
  obtain ⟨copied, hcopied, hx⟩ := ok_of_bind hx
  obtain ⟨written, hwritten, hx⟩ := ok_of_bind hx
  cases hx
  rw [write_memory hwritten, write_register hcopied]
  exact ⟨v, b, ok_of_orFault hv, ok_of_orFault hb, Memory.stored_writeWord _ _ _ _⟩

end Execute

namespace Instruction

/-- The operand that the instruction reads and writes back. -/
def target? : Instruction → Option Operand
  | binary op dst _ => if op = .cmp then none else some dst
  | unary _ target | shift _ target _ => some target
  | exchange a _ | exchangeAdd a _ => some a
  | _ => none

/-- In the state `m`, the instruction replaces the value `v` of its target by `r`. -/
def Rewrites (i : Instruction) (m : Machine) (v r : UInt64) : Prop :=
  match i with
  | binary op dst src => ∃ b, src.read m = .ok b ∧
      r = (Execute.binaryResult op v b (isOn m.flags.carry) dst.width).1
  | unary op target => r = (Execute.unaryResult op v target.width).1
  | shift op target count => ∃ n, count.read m = .ok n ∧
      r = ((Arithmetic.shift op v n target.width (isOn m.flags.carry)).map Prod.fst).getD v
  | exchange _ b => b.read m = .ok r
  | exchangeAdd dst src => ∃ b, src.read m = .ok b ∧ r = (Arithmetic.add v b false dst.width).1
  | _ => False

/-- Where the new value of a target in memory goes, when the old one is `v`. -/
def storeAddress (i : Instruction) (m : Machine) (p : Pointer) (v : UInt64) : UInt64 :=
  match i with
  | exchangeAdd _ (.register q) => p.resolve (m.set q v)
  | _ => p.resolve m

/-- The new value of the target `p` is stored where the old one was read, and nowhere else. -/
def WritesBack (i : Instruction) (m n : Machine) (p : Pointer) : Prop :=
  ∃ v r, m.readWord (p.resolve m) p.width = .ok v ∧ i.Rewrites m v r ∧
    m.memory.Stored n.memory (p.resolve m) p.width r

variable {i : Instruction} {m n : Machine} {p : Pointer} {frame : Frame}

/-- An instruction that has completed has stored the new value of its target. -/
theorem execute_stores (hw : i.WellFormed) (ht : i.target? = some (.memory p))
    (hx : i.execute frame m = .done n) :
    ∃ v r, m.readWord (p.resolve m) p.width = .ok v ∧ i.Rewrites m v r ∧
      m.memory.Stored n.memory (i.storeAddress m p v) p.width r := by
  have done {r : Except Halt Machine} (hx : Outcome.whole m r = .done n) : r = .ok n :=
    Outcome.whole_eq_done.1 hx
  cases i with
  | binary op dst src =>
    simp only [target?] at ht
    split_ifs at ht with hop
    cases ht
    obtain ⟨v, b, hv, hb, hs⟩ := Execute.binary_stores hop (done hx)
    exact ⟨v, _, hv, ⟨b, hb, rfl⟩, hs⟩
  | unary op target =>
    cases ht
    obtain ⟨v, hv, hs⟩ := Execute.unary_stores (done hx)
    exact ⟨v, _, hv, rfl, hs⟩
  | shift op target count =>
    cases ht
    obtain ⟨v, k, hv, hk, hs⟩ := Execute.shift_stores (done hx)
    exact ⟨v, _, hv, ⟨k, hk, rfl⟩, hs⟩
  | exchange a b =>
    cases ht
    obtain ⟨q, rfl⟩ := Operand.eq_register (hw.exchanged b (by simp [exchanged]))
    obtain ⟨v, r, hv, hr, hs⟩ := Execute.exchange_stores (done hx)
    exact ⟨v, r, hv, hr, hs⟩
  | exchangeAdd dst src =>
    cases ht
    obtain ⟨q, rfl⟩ := Operand.eq_register (hw.exchanged src (by simp [exchanged]))
    obtain ⟨v, b, hv, hb, hs⟩ := Execute.exchangeAdd_stores (done hx)
    exact ⟨v, _, hv, ⟨b, hb, rfl⟩, hs⟩
  | _ => cases ht

theorem rewrites_unique {v r t : UInt64} (hr : i.Rewrites m v r) (ht : i.Rewrites m v t) :
    r = t := by
  have same {b c : UInt64} {o : Operand} (hb : o.read m = .ok b) (hc : o.read m = .ok c) :
      b = c := Except.ok.inj (hb.symm.trans hc)
  cases i with
  | binary op dst src =>
    obtain ⟨b, hb, rfl⟩ := hr
    obtain ⟨c, hc, rfl⟩ := ht
    rw [same hb hc]
  | unary op target => exact hr.trans ht.symm
  | shift op target count =>
    obtain ⟨b, hb, rfl⟩ := hr
    obtain ⟨c, hc, rfl⟩ := ht
    rw [same hb hc]
  | exchange a b => exact same hr ht
  | exchangeAdd dst src =>
    obtain ⟨b, hb, rfl⟩ := hr
    obtain ⟨c, hc, rfl⟩ := ht
    rw [same hb hc]
  | _ => cases hr

/-- The instruction stores where it reads, unless it is `XADD` and the copy to its register moves
the address away. -/
theorem execute_writesBack_iff (hw : i.WellFormed) (ht : i.target? = some (.memory p))
    (hx : i.execute frame m = .done n) : i.WritesBack m n p ↔
      ∀ q v r, i = .exchangeAdd (.memory p) (.register q) →
        m.readWord (p.resolve m) p.width = .ok v → i.Rewrites m v r →
        ∀ x, (m.memory.writeWord (p.resolve (m.set q v)) p.width r).peek x =
          (m.memory.writeWord (p.resolve m) p.width r).peek x := by
  obtain ⟨v, r, hv, hr, hs⟩ := execute_stores hw ht hx
  rw [Memory.stored_iff] at hs
  constructor
  · rintro ⟨v', r', hv', hr', hs'⟩ q v'' r'' rfl hv'' hr'' x
    cases hv.symm.trans hv'
    cases hv.symm.trans hv''
    obtain rfl := rewrites_unique hr hr'
    obtain rfl := rewrites_unique hr hr''
    rw [Memory.stored_iff] at hs'
    exact (hs x).symm.trans (hs' x)
  · intro h
    refine ⟨v, r, hv, hr, Memory.stored_iff.2 fun x => (hs x).trans ?_⟩
    unfold storeAddress
    split
    · cases ht
      exact h _ v r rfl hv hr x
    · rfl

end Instruction

namespace Machine

variable {s : Settings} {m : Machine} {l : Located} {i : Instruction}

/-- What a completed step does to a target in memory; addresses relative to the instruction pointer
count from the end of the instruction. -/
theorem run_writesBack_iff {p : Pointer} (hl : m.locate = .ok l) (hi : l.instruction = some i)
    (ht : i.target? = some (.memory p)) (hd : s.disassemble = false)
    (hstop : (m.run s true).stop = .step) :
    let past : Machine := { m with ip := l.next }
    let after := (m.run s true).machine
    (∃ v r, past.readWord (p.resolve past) p.width = .ok v ∧ i.Rewrites past v r ∧
      m.memory.Stored after.memory (i.storeAddress past p v) p.width r) ∧
    (i.WritesBack past after p ↔ ∀ q v r, i = .exchangeAdd (.memory p) (.register q) →
      past.readWord (p.resolve past) p.width = .ok v → i.Rewrites past v r →
      ∀ x, (m.memory.writeWord (p.resolve (past.set q v)) p.width r).peek x =
        (m.memory.writeWord (p.resolve past) p.width r).peek x) := by
  have hw := (Located.at?_spans hl).wellFormed i hi
  have hx := execute_of_completed hl hd hi hstop
  exact ⟨Instruction.execute_stores hw ht hx, Instruction.execute_writesBack_iff hw ht hx⟩

/-- `XADD` with a register that is also the base of its address. -/
def strayAdd : Machine :=
  ((ofCode [0x48, 0x0F, 0xC1, 0x00]).set (.accumulator .qword) 0x400010).writeWord 0x400010 .qword
    0x400020

def strayTarget : Pointer := .ofRegister .qword (.accumulator .qword)

theorem strayAdd_stores_elsewhere :
    ∃ l i, strayAdd.locate = .ok l ∧ l.instruction = some i ∧
      i.target? = some (.memory strayTarget) ∧ (strayAdd.run .execute true).stop = .step ∧
      ¬ i.WritesBack { strayAdd with ip := l.next } (strayAdd.run .execute true).machine
        strayTarget := by
  have hl : strayAdd.locate = .ok ⟨0x1000, { rex := some { wide := true } }, .twoByte, 0xC1,
      some (.exchangeAdd (.memory strayTarget) (.register (.accumulator .qword))), 0x1004⟩ := by rfl
  have hstop : (strayAdd.run .execute true).stop = .step := by rfl
  have hread : Machine.readWord { strayAdd with ip := 0x1004 } 0x400010 .qword = .ok 0x400020 := by
    decide +kernel
  obtain ⟨-, hiff⟩ := run_writesBack_iff hl rfl rfl rfl hstop
  refine ⟨_, _, hl, rfl, rfl, hstop, fun h => ?_⟩
  have hsum : Instruction.Rewrites (.exchangeAdd (.memory strayTarget)
      (.register (.accumulator .qword))) { strayAdd with ip := 0x1004 } 0x400020 0x800030 :=
    ⟨0x400010, by rfl, by decide +kernel⟩
  have hbyte := hiff.1 h _ 0x400020 0x800030 rfl hread hsum 0x400010
  exact absurd hbyte (by decide +kernel)

end Machine

end LongMode
