import Std.Data.ExtTreeSet
import LongMode.Flags
import LongMode.Memory
import LongMode.Register.Basic
/-!
The machine: everything that a program can observe or change, and the breakpoints set on it.
-/

namespace LongMode

@[ext]
structure Machine where
  flags : Flags
  memory : Memory
  registers : RegisterFile
  /-- The instruction pointer: the next byte to fetch. -/
  ip : UInt64
  breakpoints : Std.ExtTreeSet UInt64

namespace Machine

/-- A fresh machine over a memory: the instruction pointer at the entry, the stack empty, every flag
off. -/
def ofMemory (memory : Memory) : Machine :=
  let stack (f : RegisterFile) (r : Register) : RegisterFile := r.set f stackTop
  { flags := .cleared
    memory
    registers := stack (stack .empty .stackPointer) (.basePointer .qword)
    ip := memory.entry
    breakpoints := ∅ }

def ofCode (code : List UInt8) : Machine := ofMemory (.load loadAddress code)

instance : Inhabited Machine := ⟨ofCode []⟩

def inCode (m : Machine) : Bool := m.memory.inCode m.ip

def isBreakpoint (m : Machine) (a : UInt64) : Bool := m.breakpoints.contains a

def setBreakpoint (m : Machine) (a : UInt64) : Machine :=
  { m with breakpoints := m.breakpoints.insert a }

/-- The machine with the breakpoint set or removed, and whether it is set now. -/
def toggleBreakpoint (m : Machine) (a : UInt64) : Bool × Machine :=
  if m.isBreakpoint a then (false, { m with breakpoints := m.breakpoints.erase a })
  else (true, m.setBreakpoint a)

def get (m : Machine) (r : Register) : UInt64 := r.fetch m.registers

def set (m : Machine) (r : Register) (v : UInt64) : Machine :=
  { m with registers := r.set m.registers v }

def define (m : Machine) (flags : Flags) : Machine := { m with flags := m.flags.overlap flags }

def readWord (m : Machine) (a : UInt64) (w : Width) : Except Fault UInt64 := m.memory.readWord a w

def writeWord (m : Machine) (a : UInt64) (w : Width) (v : UInt64) : Machine :=
  { m with memory := m.memory.writeWord a w v }

def write (m : Machine) (a : UInt64) (bytes : List UInt8) : Machine :=
  { m with memory := m.memory.write a bytes }

def setStrict (m : Machine) (strict : Bool) : Machine :=
  { m with memory := { m.memory with strict } }

/-- The stack pointer moves down by the width, and the value is stored there. -/
def push (m : Machine) (w : Width) (v : UInt64) : Machine :=
  let top := m.get .stackPointer - UInt64.ofNat w.bytes
  (m.set .stackPointer top).writeWord top w v

/-- The value at the stack pointer, which moves up by the width. -/
def pop (m : Machine) (w : Width) : Except Fault (UInt64 × Machine) := do
  let top := m.get .stackPointer
  let v ← m.readWord top w
  return (v, m.set .stackPointer (top + UInt64.ofNat w.bytes))

end Machine

end LongMode
