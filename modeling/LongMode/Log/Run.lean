import LongMode.Log.Basic
import LongMode.Run
/-!
What the log says about a run. The messages are worked out from the steps of the run, apart from the
run itself, which does not know of them.
-/

namespace LongMode.Log

def unmappedText (address start : UInt64) : String :=
  (Fault.unmappedMemory address).message ++ " (instruction at " ++
    Digits.prefixedHex start.toNat ++ ")"

def execution (log : Log) (start : UInt64) : Fault → Log
  | .unmappedMemory address => log.write .memory .debug fun _ => unmappedText address start
  | _ => log

def stopped (log : Log) (f : Fault) : Log :=
  log.write .cpu .warn fun _ => "Stopped on fault: " ++ f.message

def noEntry (log : Log) (l : Located) : Log :=
  log.write .decode .debug fun _ =>
    "No " ++ l.map.name ++ " entry for " ++ Digits.byteHex l.opcode ++ " at " ++
      Digits.prefixedHex l.start.toNat

def executing (log : Log) (l : Located) (i : Instruction) : Log :=
  log.write .cpu .trace fun _ =>
    Digits.longHex l.start.toNat ++ ": " ++ " ".intercalate i.tokens

/-- The messages about one step; `unknownSeen` when the run met an unknown opcode before. -/
def step (log : Log) (s : Settings) (m : Machine) (event : Event) (unknownSeen : Bool) : Log :=
  match m.locate with
  | .error (.fault f) => log.stopped f
  | .error (.misuse _) => log
  | .ok l =>
    match l.instruction, event with
    | none, .unknown f =>
      let log := log.noEntry l
      if unknownSeen then log else log.write .decode .warn fun _ => f.message
    | none, _ => log.noEntry l
    | some i, event =>
      let log := if s.disassemble then log else log.executing l i
      match event with
      | .halted (.fault f) => (log.execution l.start f).stopped f
      | _ => log

def steps (s : Settings) : Nat → Machine → Bool → Log → Log
  | 0, _, _, log => log
  | count + 1, m, unknownSeen, log =>
    let one := m.step s
    let log := log.step s m one.event unknownSeen
    let seen := match one.event with
      | .unknown _ => true
      | _ => unknownSeen
    steps s count one.machine seen log

def hearsRuns (log : Log) : Bool :=
  log.config.hears .cpu .warn || log.config.hears .decode .warn || log.config.hears .memory .debug

def run (log : Log) (s : Settings) (m : Machine) (r : Run) : Log :=
  if log.hearsRuns then
    let last := match r.stop with
      | .fault _ => 1
      | _ => 0
    steps s (r.progress.executed + last) m false log
  else log

end LongMode.Log
