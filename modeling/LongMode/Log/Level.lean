import LongMode.Text.Blank
/-!
How urgent a message is, and what it is about.
-/

namespace LongMode

inductive Level where
  | off
  | error
  | warn
  | info
  | debug
  | trace
deriving DecidableEq, Repr, Inhabited

namespace Level

/-- More of it means less urgent. -/
def rank : Level → Nat
  | off => 0
  | error => 1
  | warn => 2
  | info => 3
  | debug => 4
  | trace => 5

def name : Level → String
  | off => "Off"
  | error => "Error"
  | warn => "Warn"
  | info => "Info"
  | debug => "Debug"
  | trace => "Trace"

/-- A level by its name or its rank, in either case. -/
def ofText? (text : String) : Option Level :=
  match String.ofList (Text.lower text.toList) with
  | "off" | "0" => some off
  | "error" | "err" | "1" => some error
  | "warn" | "warning" | "2" => some warn
  | "info" | "3" => some info
  | "debug" | "4" => some debug
  | "trace" | "5" => some trace
  | _ => none

end Level

inductive Category where
  /-- Execution. -/
  | cpu
  /-- Opcodes without an instruction, and listings. -/
  | decode
  /-- Unmapped reads, and programs put into memory. -/
  | memory
  /-- Handles, and who holds the engine. -/
  | registry
  /-- Testcases. -/
  | harness
deriving DecidableEq, Repr

namespace Category

def all : List Category := [cpu, decode, memory, registry, harness]

def index : Category → Fin 5
  | cpu => 0
  | decode => 1
  | memory => 2
  | registry => 3
  | harness => 4

def name : Category → String
  | cpu => "Cpu"
  | decode => "Decode"
  | memory => "Memory"
  | registry => "Registry"
  | harness => "Harness"

def ofText? (text : String) : Option Category :=
  match String.ofList (Text.lower text.toList) with
  | "cpu" => some cpu
  | "decode" => some decode
  | "memory" | "mem" => some memory
  | "registry" => some registry
  | "harness" | "test" => some harness
  | _ => none

end Category

end LongMode
