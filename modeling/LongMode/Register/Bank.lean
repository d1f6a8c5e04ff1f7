/-!
The three register banks.
-/

namespace LongMode

inductive Bank where
  | general
  | mmx
  | sse
deriving DecidableEq, Repr, Inhabited

namespace Bank

def size : Bank → Nat
  | mmx => 8
  | _ => 16

def name : Bank → String
  | general => "General"
  | mmx => "Mmx"
  | sse => "Sse"

theorem size_le (b : Bank) : b.size ≤ 16 := by cases b <;> decide

end Bank

end LongMode
