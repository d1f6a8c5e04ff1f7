import LongMode.Encoding.Located
import LongMode.Execute.Instruction
import LongMode.Instruction.Text
import LongMode.Line
/-!
Running a machine: one step, and a run that goes on until its budget is spent, the instruction
pointer comes to a breakpoint or leaves the program, or a fault stops it. Instead of executing, a
machine can be made to list what it decodes.
-/

namespace LongMode

structure Settings where
  /-- Instructions are listed and not executed. -/
  disassemble : Bool := false
  /-- Control flow does not take place. -/
  noJump : Bool := false
  /-- Breakpoints are passed over. -/
  noBreak : Bool := false
deriving DecidableEq, Repr

namespace Settings

def execute : Settings := {}

/-- Straight down the program, as a listing needs it. -/
def listing : Settings := ⟨true, true, true⟩

def bits (s : Settings) : Nat :=
  (if s.disassemble then 1 else 0) + (if s.noJump then 2 else 0) + (if s.noBreak then 4 else 0)

end Settings

inductive StopReason where
  /-- The budget is spent. -/
  | step
  | breakpoint (address : UInt64)
  /-- The instruction pointer is outside the program. -/
  | endOfCode
  /-- The instruction pointer is on the instruction that faulted. -/
  | fault (f : Fault)
  /-- The engine could not serve a request; no guest program gets here. -/
  | misuse (u : Misuse)
deriving DecidableEq, Repr

namespace StopReason

def ofHalt : Halt → StopReason
  | .fault f => fault f
  | .misuse u => misuse u

def describe : StopReason → String
  | step => "Step"
  | breakpoint a => "Breakpoint(" ++ toString a ++ ")"
  | endOfCode => "EndOfCode"
  | fault f => "Fault(" ++ f.describe ++ ")"
  | misuse u => "Misuse(" ++ u.message?.getD "" ++ ")"

end StopReason

inductive Event where
  | executed
  | listed (line : Line)
  /-- No instruction was encoded; its bytes were passed over. -/
  | unknown (f : Fault)
  | halted (h : Halt)
deriving DecidableEq, Repr

structure Step where
  machine : Machine
  event : Event
  /-- What stood in front of the opcode. -/
  modifiers : Modifiers

structure Progress where
  /-- The lines listed, the last one first. -/
  lines : List Line := []
  /-- The number of instructions decoded. -/
  executed : Nat := 0
  /-- The first opcode without an instruction. -/
  invalidOpcode : Option Fault := none
  /-- The modifiers of the last instruction looked at. -/
  modifiers : Modifiers := {}

structure Run where
  machine : Machine
  stop : StopReason
  progress : Progress

/-- What a caller is told about a run. -/
structure Status where
  lines : List Line
  ip : UInt64
  stop : StopReason
  executed : Nat
  invalidOpcode : Option Fault
deriving DecidableEq, Repr

def Run.status (r : Run) : Status where
  lines := r.progress.lines.reverse
  ip := r.machine.ip
  stop := r.stop
  executed := r.progress.executed
  invalidOpcode := r.progress.invalidOpcode

namespace Progress

def after (p : Progress) (s : Step) : Progress :=
  match s.event with
  | .executed => { p with executed := p.executed + 1, modifiers := s.modifiers }
  | .listed line =>
    { p with lines := line :: p.lines, executed := p.executed + 1, modifiers := s.modifiers }
  | .unknown f =>
    { p with executed := p.executed + 1, modifiers := s.modifiers
             invalidOpcode := p.invalidOpcode.or (some f) }
  | .halted _ => { p with modifiers := s.modifiers }

end Progress

namespace Machine

def locate (m : Machine) : Except Halt Located := Located.at? m.memory.readByte m.ip

def lineFor (m : Machine) (l : Located) : Line :=
  let mark := if m.isBreakpoint l.start then LineInfo.breakpoint else .none
  match l.instruction with
  | some i => ⟨l.start, l.length, i.tokens, mark⟩
  | none => ⟨l.start, l.length, ["BAD INSTRUCTION"], LineInfo.invalid.insert mark⟩

/-- One instruction listed or executed. A halt leaves the instruction pointer where it was. -/
def step (s : Settings) (m : Machine) : Step :=
  let start := m.ip
  match m.locate with
  | .error h => ⟨m, .halted h, (Modifiers.leading m.memory.readByte start).1⟩
  | .ok l =>
    let line? := if s.disassemble then some (m.lineFor l) else none
    let past := { m with ip := l.next }
    match line?, l.instruction with
    | some line, _ => ⟨past, .listed line, l.modifiers⟩
    | none, none => ⟨past, .unknown (.invalidOpcode start l.opcode), l.modifiers⟩
    | none, some i =>
      match i.execute ⟨start, l.modifiers.addressWidth, !s.noJump⟩ past with
      | .done next => ⟨next, .executed, l.modifiers⟩
      | .halted h next => ⟨{ next with ip := start }, .halted h, l.modifiers⟩

/-- A run of at most `budget` more steps. Breakpoints count only after a step, so that a run can
start on one. -/
def runOn (s : Settings) : Nat → Machine → Progress → Run
  | 0, m, p => ⟨m, .step, p⟩
  | budget + 1, m, p =>
    if m.inCode then
      let one := m.step s
      let q := p.after one
      match one.event with
      | .halted h => ⟨one.machine, .ofHalt h, q⟩
      | _ =>
        if budget = 0 then ⟨one.machine, .step, q⟩
        else if !s.noBreak && one.machine.isBreakpoint one.machine.ip then
          ⟨one.machine, .breakpoint one.machine.ip, q⟩
        else runOn s budget one.machine q
    else ⟨m, .endOfCode, p⟩

/-- A run of at most `budget` steps. A budget of none still buys one step. -/
def runFor (s : Settings) (budget : Nat) (m : Machine) : Run := runOn s (max budget 1) m {}

/-- More steps than any caller waits for. -/
def unlimited : Nat := UInt64.size - 1

/-- One step, or a run without a budget. -/
def run (s : Settings) (single : Bool) (m : Machine) : Run :=
  runFor s (if single then 1 else unlimited) m

end Machine

end LongMode
