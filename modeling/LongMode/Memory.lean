import Std.Data.ExtTreeMap
import LongMode.Fault
import LongMode.LittleEndian
import LongMode.Misuse
import LongMode.Width
/-!
Guest memory: the bytes written so far, by address modulo 2^64, and a list of named segments. A byte
that was never written reads as zero. In strict memory a read faults unless the byte was written or
lies in a segment.
-/

namespace LongMode

/-- A named range of addresses, from `start` up to but not including `stop`. -/
structure Segment where
  name : String
  start : UInt64
  stop : UInt64
deriving DecidableEq, Repr

namespace Segment

def contains (s : Segment) (a : UInt64) : Bool := s.start ≤ a && a < s.stop

/-- The number of addresses in the range, zero where it ends before it starts. -/
def length (s : Segment) : Nat := s.stop.toNat - s.start.toNat

end Segment

def codeSegment : String := ".main"

def loadAddress : UInt64 := 0x1000

/-- One past the last byte of the stack, where the stack pointer starts. -/
def stackTop : UInt64 := 0x80_0000

@[ext]
structure Memory where
  cells : Std.ExtTreeMap UInt64 UInt8
  segments : List Segment
  /-- One past the last byte of the program. -/
  codeEnd : UInt64
  strict : Bool

namespace Memory

def empty : Memory := ⟨∅, [], 0, false⟩

instance : Inhabited Memory := ⟨empty⟩

def segment? (m : Memory) (name : String) : Option Segment := m.segments.find? (·.name == name)

def entry (m : Memory) : UInt64 := ((m.segment? codeSegment).map Segment.start).getD 0

def inCode (m : Memory) (a : UInt64) : Bool := m.entry ≤ a && a < m.codeEnd

/-- A segment of the same name is replaced; the new one goes to the end of the list. -/
def addSegment (m : Memory) (s : Segment) : Memory :=
  { m with segments := m.segments.filter (·.name != s.name) ++ [s] }

def isMapped (m : Memory) (a : UInt64) : Bool :=
  m.cells.contains a || m.segments.any (·.contains a)

def peek (m : Memory) (a : UInt64) : UInt8 := m.cells[a]?.getD 0

/-- One byte, as a guest reads it. -/
def readByte (m : Memory) (a : UInt64) : Except Fault UInt8 :=
  if m.strict && !m.isMapped a then .error (.unmappedMemory a) else .ok (m.peek a)

def read (m : Memory) (a : UInt64) : Nat → Except Fault (List UInt8)
  | 0 => .ok []
  | n + 1 => do
    let b ← m.readByte a
    let rest ← m.read (a + 1) n
    return b :: rest

/-- A word of at most eight bytes. -/
def readWord (m : Memory) (a : UInt64) (w : Width) : Except Fault UInt64 := do
  let bytes ← m.read a w.wordBytes
  return LittleEndian.toWord bytes

/-- `n` bytes from an address on, zero where nothing is written. -/
def dump (m : Memory) (a : UInt64) : Nat → List UInt8
  | 0 => []
  | n + 1 => m.peek a :: m.dump (a + 1) n

def writeByte (m : Memory) (a : UInt64) (b : UInt8) : Memory :=
  { m with cells := m.cells.insert a b }

def write (m : Memory) (a : UInt64) : List UInt8 → Memory
  | [] => m
  | b :: rest => (m.writeByte a b).write (a + 1) rest

/-- The low part of `v`, at most eight bytes. -/
def writeWord (m : Memory) (a : UInt64) (w : Width) (v : UInt64) : Memory :=
  m.write a (LittleEndian.ofWord w.wordBytes v)

/-- A program at `origin` with the usual heap and stack. -/
def load (origin : UInt64) (code : List UInt8) : Memory :=
  let stop := origin + UInt64.ofNat code.length
  let bare : Memory :=
    { cells := ∅
      segments := [⟨codeSegment, origin, stop⟩, ⟨".heap", 0x40_0001, 0x60_0000⟩,
        ⟨".stack", 0x60_0000, stackTop⟩]
      codeEnd := stop
      strict := false }
  bare.write origin code

/-- The bytes from `start` up to but not including `stop` are forgotten. -/
def erase (m : Memory) (start stop : UInt64) : Memory :=
  { m with cells := m.cells.filter fun a _ => !(start ≤ a && a < stop) }

/-- The program replaced by another one at the same place. The old program's bytes are forgotten, for
which its segment must not end before it starts. -/
def flash (m : Memory) (code : List UInt8) : Except Misuse Memory :=
  let origin := m.entry
  let stop := origin + UInt64.ofNat code.length
  let cleared? : Except Misuse Memory := match m.segment? codeSegment with
    | none => .ok m
    | some old =>
      if old.start ≤ old.stop then .ok (m.erase old.start old.stop)
      else .error .outOfRange
  cleared?.map fun cleared =>
    { cleared.addSegment ⟨codeSegment, origin, stop⟩ with codeEnd := stop }.write origin code

/-- The written bytes joined into runs of consecutive addresses, in address order. -/
def runs (m : Memory) : List (UInt64 × List UInt8) :=
  let joined := m.cells.toList.foldl (fun (acc : List (UInt64 × UInt64 × List UInt8)) (a, b) =>
    match acc with
    | (start, next, bytes) :: others =>
      -- an address of zero starts a run: nothing comes before it
      if next == a && a != 0 then (start, a + 1, b :: bytes) :: others
      else (a, a + 1, [b]) :: acc
    | [] => [(a, a + 1, [b])]) []
  joined.reverse.map fun (start, _, bytes) => (start, bytes.reverse)

end Memory

end LongMode
