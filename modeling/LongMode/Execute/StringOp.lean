import LongMode.Arithmetic.Sum
import LongMode.Execute.Outcome
import LongMode.Instruction.Basic
/-!
String instructions. One element at a time is moved, stored, loaded or compared, and the indexes
advance by its size, downwards while the direction flag is set. With a repeat prefix the counter
register says how many elements there are, and a comparison can end the repetition early.
-/

namespace LongMode.StringOp

def source (op : StringOp) : Register := .sourceIndex op.pointerWidth
def destination (op : StringOp) : Register := .destinationIndex op.pointerWidth
def counter (op : StringOp) : Register := .counter op.pointerWidth

def advance (op : StringOp) (r : Register) (m : Machine) : Machine :=
  let size := UInt64.ofNat op.width.bytes
  let next := if isOn m.flags.direction then m.get r - size else m.get r + size
  m.set r next

/-- One element. A fault leaves the machine as it was. -/
def element (op : StringOp) (m : Machine) : Except Fault Machine := do
  let w := op.width
  match op.kind with
  | .move =>
    let v ← m.readWord (m.get op.source) w
    let moved := m.writeWord (m.get op.destination) w v
    return op.advance op.destination (op.advance op.source moved)
  | .compare =>
    let left ← m.readWord (m.get op.source) w
    let right ← m.readWord (m.get op.destination) w
    let compared := m.define (Arithmetic.sub left right false w).2
    return op.advance op.destination (op.advance op.source compared)
  | .store =>
    let stored := m.writeWord (m.get op.destination) w (m.get (.accumulator w))
    return op.advance op.destination stored
  | .load =>
    let v ← m.readWord (m.get op.source) w
    return op.advance op.source (m.set (.accumulator w) v)
  | .scan =>
    let right ← m.readWord (m.get op.destination) w
    let compared := m.define (Arithmetic.sub (m.get (.accumulator w)) right false w).2
    return op.advance op.destination compared

/-- The comparison just made ends a repetition that goes on while `equal` says. -/
def stops (op : StringOp) (whileEqual : Bool) (m : Machine) : Bool :=
  op.kind.compares && isOn m.flags.zero != whileEqual

/-- The next `count` elements, with the counter register counted down after each. -/
def loop (op : StringOp) (whileEqual : Bool) : Nat → Machine → Outcome
  | 0, m => .done m
  | count + 1, m =>
    match op.element m with
    | .error f => .halted (.fault f) m
    | .ok next =>
      let counted := next.set op.counter (UInt64.ofNat count)
      if op.stops whileEqual counted then .done counted else op.loop whileEqual count counted

def execute (op : StringOp) (m : Machine) : Outcome :=
  match op.repetition with
  | some .whileEqual => op.loop true (m.get op.counter).toNat m
  | some .whileUnequal => op.loop false (m.get op.counter).toNat m
  | some .lock | none => .whole m (orFault (op.element m))

end LongMode.StringOp
