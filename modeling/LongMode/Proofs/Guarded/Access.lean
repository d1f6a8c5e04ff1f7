import LongMode.Execute.Instruction
import LongMode.Proofs.Execute.Faults
import LongMode.Proofs.Guarded.Storage
/-!
What an instruction reads and writes, guarded: registers, memory, operands and the stack. No access
crashes, apart from a write to an immediate value, which is no place.
-/

namespace LongMode

theorem orFault_bind {α β : Type} (r : Except Fault α) (f : α → Except Fault β) :
    orFault (r >>= f) = (orFault r >>= fun x => orFault (f x)) := by
  cases r <;> rfl

namespace Guarded

def getRegister (m : Machine) (r : Register) : Except Crash UInt64 := fetch r m.registers

def setRegister (m : Machine) (r : Register) (v : UInt64) : Except Crash Machine := do
  let registers ← set r m.registers v
  return { m with registers }

def readMemory (m : Machine) (a : UInt64) (w : Width) : Guard UInt64 := do
  let r ← Guard.sure (readWord m.memory a w)
  Guard.part (orFault r)

def writeMemory (m : Machine) (a : UInt64) (w : Width) (v : UInt64) : Except Crash Machine := do
  let memory ← writeWord m.memory a w v
  return { m with memory }

def resolve (p : Pointer) (m : Machine) : Except Crash UInt64 := do
  let ip := if p.ipRelative then m.ip else 0
  let base ← match p.base with
    | some r => getRegister m r
    | none => .ok 0
  let index ← match p.index with
    | some r => (· * p.scale.toUInt64) <$> getRegister m r
    | none => .ok 0
  return (p.displacement.toUInt64 + ip + base + index) &&& p.addressWidth.mask

def read (o : Operand) (m : Machine) : Guard UInt64 :=
  match o with
  | .register r => Guard.sure (getRegister m r)
  | .memory p => do
    let a ← Guard.sure (resolve p m)
    readMemory m a p.width
  | .immediate i => return i.value

def write (o : Operand) (v : UInt64) (m : Machine) : Guard Machine :=
  match o with
  | .register r => Guard.sure (setRegister m r v)
  | .memory p => do
    let a ← Guard.sure (resolve p m)
    Guard.sure (writeMemory m a p.width v)
  | .immediate _ => Guard.sure (.error (.misuse .immediateWrite))

/-- `Machine.push`. -/
def pushWord (m : Machine) (w : Width) (v : UInt64) : Except Crash Machine := do
  let old ← getRegister m .stackPointer
  let top := old - UInt64.ofNat w.bytes
  let moved ← setRegister m .stackPointer top
  writeMemory moved top w v

/-- `Machine.pop`. -/
def popWord (m : Machine) (w : Width) : Guard (UInt64 × Machine) := do
  let top ← Guard.sure (getRegister m .stackPointer)
  let v ← readMemory m top w
  let popped ← Guard.sure (setRegister m .stackPointer (top + UInt64.ofNat w.bytes))
  return (v, popped)

/-- `Outcome.whole` of a guarded effect. -/
def whole (m : Machine) (c : Guard Machine) : Except Crash Outcome := Outcome.whole m <$> c.run

open Guard

variable (m : Machine)

@[simp] theorem getRegister_eq (r : Register) : getRegister m r = .ok (m.get r) := fetch_eq _ _

@[simp] theorem setRegister_eq (r : Register) (v : UInt64) :
    setRegister m r v = .ok (m.set r v) := by
  unfold setRegister
  rw [set_eq]
  rfl

@[simp] theorem writeMemory_eq (a : UInt64) (w : Width) (v : UInt64) :
    writeMemory m a w v = .ok (m.writeWord a w v) := by
  unfold writeMemory
  rw [writeWord_eq]
  rfl

theorem readMemory_runs (a : UInt64) (w : Width) :
    Runs (readMemory m a w) (orFault (m.readWord a w)) := by
  unfold readMemory
  rw [readWord_eq, sure_bind]
  exact .part (OnlyFaults.orFault _)

@[simp] theorem resolve_eq (p : Pointer) : resolve p m = .ok (p.resolve m) := by
  unfold resolve Pointer.resolve
  cases p.base <;> cases p.index <;> simp only [getRegister_eq] <;> rfl

theorem read_runs (o : Operand) : Runs (read o m) (Execute.read o m) := by
  unfold read Execute.read Operand.read
  cases o with
  | register r =>
    dsimp only
    rw [getRegister_eq]
    rfl
  | memory p =>
    dsimp only
    rw [resolve_eq, sure_bind]
    exact readMemory_runs m _ _
  | immediate i => rfl

theorem write_runs {o : Operand} (h : o.isPlace) (v : UInt64) :
    Runs (write o v m) (Execute.write o v m) := by
  unfold write Execute.write Operand.write
  cases o with
  | register r =>
    dsimp only
    rw [setRegister_eq]
    rfl
  | memory p =>
    dsimp only
    rw [resolve_eq, sure_bind, writeMemory_eq]
    rfl
  | immediate i => cases h

@[simp] theorem pushWord_eq (w : Width) (v : UInt64) : pushWord m w v = .ok (m.push w v) := by
  unfold pushWord
  rw [getRegister_eq, ok_bind]
  dsimp only
  rw [setRegister_eq, ok_bind, writeMemory_eq]
  rfl

theorem popWord_runs (w : Width) : Runs (popWord m w) (orFault (m.pop w)) := by
  unfold popWord Machine.pop
  dsimp only
  rw [getRegister_eq, sure_bind, orFault_bind]
  refine (readMemory_runs m _ w).bind fun v _ => ?_
  rw [setRegister_eq]
  rfl

theorem whole_of_runs {c : Guard Machine} {r : Except Halt Machine} (h : Runs c r) :
    whole m c = .ok (Outcome.whole m r) := by
  unfold whole
  rw [show c.run = .ok r from h]
  rfl

end Guarded

end LongMode
