import LongMode.Encoding.Modifiers
import LongMode.Halt
import LongMode.LittleEndian
/-!
Decoders: readers of consecutive instruction bytes. A decoder looks at memory only through a
`Fetch`, so what it returns depends on nothing but the bytes it read.
-/

namespace LongMode

/-- Reads from an address on, and says where the next byte is. -/
abbrev Decoder := ReaderT Fetch (StateT UInt64 (Except Halt))

namespace Decoder

def fetch : Decoder UInt8 := fun fetch a => do
  let byte ← orFault (fetch a)
  return (byte, a + 1)

def peek : Decoder UInt8 := fun fetch a => do
  let byte ← orFault (fetch a)
  return (byte, a)

def fetchBytes : Nat → Decoder (List UInt8)
  | 0 => pure []
  | n + 1 => do
    let byte ← fetch
    let rest ← fetchBytes n
    return byte :: rest

/-- The next `n` bytes as a word, lowest first. -/
def fetchWord (n : Nat) : Decoder UInt64 := do
  let bytes ← fetchBytes n
  return LittleEndian.toWord bytes

def ofExcept {α : Type} (r : Except Misuse α) : Decoder α := fun _ a => do
  let x ← orMisuse r
  return (x, a)

end Decoder

end LongMode
