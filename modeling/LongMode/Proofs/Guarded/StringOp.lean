import LongMode.Proofs.Guarded.Access
/-!
String instructions, guarded.
-/

namespace LongMode.Guarded

def advance (op : StringOp) (r : Register) (m : Machine) : Except Crash Machine := do
  let size := UInt64.ofNat op.width.bytes
  let index ← getRegister m r
  setRegister m r (if isOn m.flags.direction then index - size else index + size)

def element (op : StringOp) (m : Machine) : Guard Machine := do
  let w := op.width
  match op.kind with
  | .move =>
    let source ← Guard.sure (getRegister m op.source)
    let v ← readMemory m source w
    let destination ← Guard.sure (getRegister m op.destination)
    let moved ← Guard.sure (writeMemory m destination w v)
    let past ← Guard.sure (advance op op.source moved)
    Guard.sure (advance op op.destination past)
  | .compare =>
    let source ← Guard.sure (getRegister m op.source)
    let left ← readMemory m source w
    let destination ← Guard.sure (getRegister m op.destination)
    let right ← readMemory m destination w
    let compared := m.define (Arithmetic.sub left right false w).2
    let past ← Guard.sure (advance op op.source compared)
    Guard.sure (advance op op.destination past)
  | .store =>
    let v ← Guard.sure (getRegister m (.accumulator w))
    let destination ← Guard.sure (getRegister m op.destination)
    let stored ← Guard.sure (writeMemory m destination w v)
    Guard.sure (advance op op.destination stored)
  | .load =>
    let source ← Guard.sure (getRegister m op.source)
    let v ← readMemory m source w
    let loaded ← Guard.sure (setRegister m (.accumulator w) v)
    Guard.sure (advance op op.source loaded)
  | .scan =>
    let left ← Guard.sure (getRegister m (.accumulator w))
    let destination ← Guard.sure (getRegister m op.destination)
    let right ← readMemory m destination w
    let compared := m.define (Arithmetic.sub left right false w).2
    Guard.sure (advance op op.destination compared)

def loop (op : StringOp) (whileEqual : Bool) : Nat → Machine → Except Crash Outcome
  | 0, m => .ok (.done m)
  | count + 1, m => do
    match ← (element op m).run with
    | .error h => return .halted h m
    | .ok next =>
      let counted ← setRegister next op.counter (UInt64.ofNat count)
      if op.stops whileEqual counted then return .done counted
      else loop op whileEqual count counted

def executeString (op : StringOp) (m : Machine) : Except Crash Outcome :=
  match op.repetition with
  | some .whileEqual => do loop op true (← getRegister m op.counter).toNat m
  | some .whileUnequal => do loop op false (← getRegister m op.counter).toNat m
  | some .lock | none => whole m (element op m)

open Guard

theorem advance_eq (op : StringOp) (r : Register) (m : Machine) :
    advance op r m = .ok (op.advance r m) := by
  unfold advance StringOp.advance
  dsimp only
  rw [getRegister_eq, ok_bind, setRegister_eq]

theorem element_runs (op : StringOp) (m : Machine) :
    Runs (element op m) (orFault (op.element m)) := by
  unfold element StringOp.element
  dsimp only
  cases op.kind with
  | move =>
    dsimp only
    rw [getRegister_eq, sure_bind, orFault_bind]
    refine (readMemory_runs m _ _).bind fun v _ => ?_
    simp only [getRegister_eq, writeMemory_eq, advance_eq, sure_bind]
    exact .sure rfl
  | compare =>
    dsimp only
    rw [getRegister_eq, sure_bind, orFault_bind]
    refine (readMemory_runs m _ _).bind fun left _ => ?_
    rw [getRegister_eq, sure_bind, orFault_bind]
    refine (readMemory_runs m _ _).bind fun right _ => ?_
    simp only [advance_eq, sure_bind]
    exact .sure rfl
  | store =>
    simp only [getRegister_eq, writeMemory_eq, advance_eq, sure_bind]
    exact .sure rfl
  | load =>
    dsimp only
    rw [getRegister_eq, sure_bind, orFault_bind]
    refine (readMemory_runs m _ _).bind fun v _ => ?_
    simp only [setRegister_eq, advance_eq, sure_bind]
    exact .sure rfl
  | scan =>
    simp only [getRegister_eq, sure_bind]
    rw [orFault_bind]
    refine (readMemory_runs m _ _).bind fun right _ => ?_
    simp only [advance_eq]
    exact .sure rfl

theorem loop_eq (op : StringOp) (whileEqual : Bool) (count : Nat) (m : Machine) :
    loop op whileEqual count m = .ok (op.loop whileEqual count m) := by
  induction count generalizing m with
  | zero => rfl
  | succ count ih =>
    unfold loop StringOp.loop
    rw [show (element op m).run = .ok (orFault (op.element m)) from element_runs op m, ok_bind]
    cases op.element m with
    | error f => rfl
    | ok next =>
      dsimp only [orFault]
      rw [setRegister_eq, ok_bind, ih]
      split_ifs <;> rfl

theorem executeString_eq (op : StringOp) (m : Machine) :
    executeString op m = .ok (op.execute m) := by
  unfold executeString StringOp.execute
  cases op.repetition with
  | none => exact whole_of_runs m (element_runs op m)
  | some r =>
    cases r with
    | whileEqual | whileUnequal =>
      dsimp only
      rw [getRegister_eq, ok_bind, loop_eq]
    | lock => exact whole_of_runs m (element_runs op m)

end LongMode.Guarded
