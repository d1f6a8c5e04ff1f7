import LongMode.Host.Basic
import LongMode.Listing
/-!
Listings of registered machines.
-/

namespace LongMode

/-- A listing whose machine is registered. -/
structure Disassembler where
  handle : Handle
  lines : Lines

namespace Disassembler

def work {α : Type} (d : Disassembler) (f : Listing → Log → α × Listing × Log) :
    Action (α × Disassembler) := do
  let (x, lines) ← d.handle.hold fun _ m log =>
    let (x, after, log) := f ⟨m, d.lines⟩ log
    (.ok (x, after.lines), after.machine, log)
  return (x, { d with lines })

def rebuild (d : Disassembler) : Action Disassembler := do
  let ((), d) ← d.work fun old log =>
    let start := { old.machine with ip := old.machine.memory.entry }
    ((), .ofMachine old.machine, log.run .listing start (Listing.wholeRun old.machine))
  Action.write .decode .debug fun _ => "Disassembled " ++ toString d.lines.size ++ " lines"
  return d

def ofMachine (m : Machine) : Action Disassembler := do
  let handle ← Handle.register "disassembler" m .listing
  rebuild { handle, lines := ∅ }

def reload (d : Disassembler) (m : Machine) : Action Disassembler := do
  d.handle.replace m
  d.rebuild

def toggleBreakpoint (d : Disassembler) (a : UInt64) : Action (Bool × Disassembler) :=
  d.work fun listing log =>
    let (isSet, after) := listing.toggleBreakpoint a
    (isSet, after, log)

def logDecoding (m : Machine) (log : Log) (a : UInt64) : Log :=
  let there := { m with ip := a }
  log.run .listing there (there.run .listing true)

/-- Bytes written at an address, and the lines they touch decoded again. -/
def flash (d : Disassembler) (a : UInt64) (bytes : List UInt8) : Action Disassembler := do
  if bytes.isEmpty then return d
  else
    let (r, after) ← d.work fun listing log =>
      let (after, r) := listing.edit a bytes
      (r, after, r.tried.reverse.foldl (logDecoding after.machine) log)
    Action.write .decode .debug fun _ =>
      "Flashed " ++ toString bytes.length ++ " bytes at " ++ Digits.prefixedHex a.toNat ++
        "; re-decoded " ++ toString r.found ++ " lines from " ++
        Digits.prefixedHex (d.lines.startAt a).toNat
    return after

end Disassembler

end LongMode
