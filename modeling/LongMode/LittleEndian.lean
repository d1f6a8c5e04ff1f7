/-!
Words as little-endian byte sequences.
-/

namespace LongMode.LittleEndian

/-- The word whose lowest byte comes first; bytes from the ninth on fall off the top. -/
def toWord : List UInt8 → UInt64
  | [] => 0
  | b :: rest => b.toUInt64 ||| (toWord rest <<< 8)

/-- The lowest `n` bytes of a word, lowest first; beyond the eighth they are zero. -/
def ofWord : Nat → UInt64 → List UInt8
  | 0, _ => []
  | n + 1, v => v.toUInt8 :: ofWord n (v >>> 8)

@[simp] theorem length_ofWord (n : Nat) (v : UInt64) : (ofWord n v).length = n := by
  induction n generalizing v with
  | zero => rfl
  | succ n ih => simp [ofWord, ih]

end LongMode.LittleEndian
