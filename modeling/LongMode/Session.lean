import LongMode.Encoding.ModRm
import LongMode.Log.Run
/-!
Sessions: a machine taken in hand between instructions. Operand bytes are decoded at the instruction
pointer, under the modifiers of the instruction that was last looked at.
-/

namespace LongMode

structure Session where
  machine : Machine
  settings : Settings
  modifiers : Modifiers := {}
  /-- The instruction pointer when the session began. -/
  start : UInt64

namespace Session

def ofMachine (m : Machine) (settings : Settings) : Session :=
  { machine := m, settings, start := m.ip }

def setIp (s : Session) (ip : UInt64) : Session := { s with machine := { s.machine with ip } }

/-- What the next bytes encode. The instruction pointer moves past the bytes read, up to the byte
that could not be read if there is one. -/
def decode {α : Type} (s : Session) (decoder : Modifiers → Decoder α) : Except Halt α × Session :=
  match decoder s.modifiers s.machine.memory.readByte s.machine.ip with
  | .ok (x, next) => (.ok x, s.setIp next)
  | .error (.fault (.unmappedMemory a)) => (.error (.fault (.unmappedMemory a)), s.setIp a)
  | .error h => (.error h, s)

def peek (s : Session) : Except Fault UInt8 := s.machine.memory.readByte s.machine.ip

/-- Control goes to an address, unless control flow does not take place. -/
def jump (s : Session) (target : UInt64) : Session :=
  if s.settings.noJump then s else s.setIp target

def read (s : Session) (o : Operand) (log : Log) : Except Fault UInt64 × Log :=
  match o.read s.machine with
  | .ok v => (.ok v, log)
  | .error f => (.error f, log.execution s.start f)

def write (s : Session) (o : Operand) (v : UInt64) : Except Misuse Session := do
  let machine ← o.write s.machine v
  return { s with machine }

def push (s : Session) (w : Width) (v : UInt64) : Session :=
  { s with machine := s.machine.push w v }

def pop (s : Session) (w : Width) (log : Log) : Except Fault UInt64 × Session × Log :=
  match s.machine.pop w with
  | .ok (v, machine) => (.ok v, { s with machine }, log)
  | .error f => (.error f, s, log.execution s.start f)

def runFor (s : Session) (budget : Nat) (log : Log) : Run × Session × Log :=
  let r := s.machine.runFor s.settings budget
  let modifiers := if s.machine.inCode then r.progress.modifiers else s.modifiers
  (r, { s with machine := r.machine, modifiers }, log.run s.settings s.machine r)

end Session

end LongMode
