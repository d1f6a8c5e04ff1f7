import LongMode.Testcase.Basic
/-!
Running a testcase: from a fresh machine to one checkpoint after the other, within a budget of
instructions. Once a checkpoint is not reached, it and all later ones have failed.
-/

namespace LongMode

inductive Mismatch where
  | register (name : String) (expected actual : UInt64)
  | memory (address : UInt64) (expected actual : List UInt8)
  | flags (expected actual : Flags)
  /-- The run ended before it came to the checkpoint. -/
  | notReached (stop : StopReason)
deriving DecidableEq, Repr

namespace Mismatch

/-- Bytes in brackets, for instance `[0A, FF]`. -/
def bytesText (bytes : List UInt8) : String :=
  "[" ++ ", ".intercalate (bytes.map Digits.byteHex) ++ "]"

def text : Mismatch → String
  | register name expected actual =>
    name ++ ": expected " ++ Digits.prefixedHex expected.toNat ++ ", got " ++
      Digits.prefixedHex actual.toNat
  | memory address expected actual =>
    "memory at " ++ Digits.prefixedHex address.toNat ++ ": expected " ++ bytesText expected ++
      ", got " ++ bytesText actual
  | flags expected actual => "flags: expected [" ++ expected.text ++ "], got [" ++ actual.text ++ "]"
  | notReached stop => "never reached (" ++ stop.describe ++ ")"

end Mismatch

structure CheckpointResult where
  address : UInt64
  reached : Bool
  mismatches : List Mismatch
deriving DecidableEq, Repr

namespace CheckpointResult

def passed (r : CheckpointResult) : Bool := r.reached && r.mismatches.isEmpty

def missed (address : UInt64) (stop : StopReason) : CheckpointResult :=
  ⟨address, false, [.notReached stop]⟩

end CheckpointResult

structure TestReport where
  name : String
  checkpoints : List CheckpointResult
  /-- The instructions executed for the whole testcase. -/
  executed : Nat
deriving DecidableEq, Repr

namespace TestReport

def passed (r : TestReport) : Bool := r.checkpoints.all CheckpointResult.passed

def failures (r : TestReport) : List CheckpointResult := r.checkpoints.filter fun c => !c.passed

end TestReport

structure RegisterExpectation where
  name : String
  register : Register
  value : UInt64
deriving DecidableEq, Repr

namespace RegisterExpectation

/-- The expectations of a checkpoint, whose names must all be registers. -/
def ofNamed : List (String × UInt64) → Except TestcaseError (List RegisterExpectation)
  | [] => .ok []
  | (name, value) :: rest =>
    match Register.ofName? name with
    | none => .error (.unknownRegister name)
    | some register => do
      let others ← ofNamed rest
      return ⟨String.ofList (Text.upper name.toList), register, value⟩ :: others

/-- The difference, if there is one. The expected value is cut off to the width of the register. -/
def check (e : RegisterExpectation) (m : Machine) : Option Mismatch :=
  let actual := m.get e.register
  let expected := e.value &&& e.register.width.mask
  if actual = expected then none else some (.register e.name expected actual)

end RegisterExpectation

def MemoryExpectation.check (e : MemoryExpectation) (m : Machine) : Option Mismatch :=
  let expected := e.bytes.read.toOption.getD []
  let actual := m.memory.dump e.address expected.length
  if actual = expected then none else some (.memory e.address expected actual)

/-- A checkpoint whose registers are known. -/
structure Target where
  checkpoint : Checkpoint
  registers : List RegisterExpectation

namespace Target

def ofCheckpoints : List Checkpoint → Except TestcaseError (List Target)
  | [] => .ok []
  | c :: rest => do
    let registers ← RegisterExpectation.ofNamed c.registers
    let others ← ofCheckpoints rest
    return ⟨c, registers⟩ :: others

def address (t : Target) : UInt64 := t.checkpoint.address

def compare (t : Target) (m : Machine) : List Mismatch :=
  t.registers.filterMap (·.check m) ++ t.checkpoint.memory.filterMap (·.check m) ++
    (if m.flags.agrees t.checkpoint.flags then [] else [.flags t.checkpoint.flags m.flags])

end Target

namespace Testcase

inductive Event where
  /-- The machine ran from a state on. -/
  | ran (m : Machine) (r : Run)
  /-- The machine came to a checkpoint. -/
  | reached (address : UInt64) (mismatches : List Mismatch)
  | missed (address : UInt64) (stop : StopReason)

def usualLimit : Nat := 1000000

/-- A testcase under way, and what an observer has made of it so far. -/
structure Journey (β : Type) where
  machine : Machine
  executed : Nat
  seen : β

/-- The journey to an address, and why it ended. Other breakpoints are passed over. -/
def travel {β : Type} (observe : Event → β → β) (limit : Nat) (address : UInt64) :
    Nat → Journey β → StopReason × Journey β
  | 0, j => (.step, j)
  | fuel + 1, j =>
    let budget := limit - j.executed
    if budget = 0 then (.step, j)
    else
      let r := j.machine.runFor .execute budget
      let seen := observe (.ran j.machine r) j.seen
      let next : Journey β := ⟨r.machine, j.executed + r.progress.executed, seen⟩
      match r.stop with
      | .breakpoint a =>
        if a = address then (r.stop, next) else travel observe limit address fuel next
      | stop => (stop, next)

def visit {β : Type} (observe : Event → β → β) (limit : Nat) :
    List Target → Journey β → List CheckpointResult × Journey β
  | [], j => ([], j)
  | t :: rest, j =>
    let (stop, next) := travel observe limit t.address (limit + 1) j
    if stop = .breakpoint t.address then
      let mismatches := t.compare next.machine
      let next := { next with seen := observe (.reached t.address mismatches) next.seen }
      let (others, final) := visit observe limit rest next
      (⟨t.address, true, mismatches⟩ :: others, final)
    else
      let next := { next with seen := observe (.missed t.address stop) next.seen }
      ((t :: rest).map fun u => .missed u.address stop, next)

/-- A fresh machine with the program and a breakpoint at every checkpoint. -/
def machine (t : Testcase) (code : List UInt8) : Machine :=
  t.checkpoints.foldl (fun m c => m.setBreakpoint c.address) (.ofCode code)

def prepare (t : Testcase) : Except TestcaseError (Machine × List Target) := do
  t.validate
  let code ← t.code.read
  let targets ← Target.ofCheckpoints t.checkpoints
  return (t.machine code, targets)

def report {β : Type} (observe : Event → β → β) (limit : Nat) (name : String) (m : Machine)
    (targets : List Target) (seen : β) : TestReport × Journey β :=
  let (checkpoints, j) := visit observe limit targets ⟨m, 0, seen⟩
  (⟨name, checkpoints, j.executed⟩, j)

def run (limit : Nat) (t : Testcase) : Except TestcaseError TestReport := do
  let (m, targets) ← t.prepare
  return (report (fun _ () => ()) limit t.name m targets ()).1

end Testcase

end LongMode
